import SpotExchange.Proofs.TopOfBook

/-!
Taking quantities off a view one by one, or added up for each price and all at once. A row
that shows less than is taken there goes either way: at once, or as soon as nothing is left
of it, after which the rest finds no row. A pass adds up what its makers give and takes the
sums off at its end, so that the view ends as if it had followed every trade.
-/

namespace SpotExchange

namespace DepthDeltas

def gather (quantities : List (Decimal × Decimal)) : Except Overflow DepthDeltas :=
  quantities.foldlM (fun deltas quantity => DepthDeltas.add quantity.1 quantity.2 deltas) []

section Gather
variable {places : Nat} {price amount : Decimal} {deltas later : DepthDeltas} {p : ℚ}

theorem Exact.taken_le (exact : deltas.Exact places) (p : ℚ) :
    taken p deltas ≤ (deltas.map fun entry => entry.2.value).sum := by
  apply List.sum_le_sum
  intro entry member
  split_ifs
  · exact le_rfl
  · exact (exact entry member).2

theorem Exact.exists_add (exact : deltas.Exact places) (grid : amount.OnGrid places)
    (nonneg : 0 ≤ amount.value)
    (small : (taken price.value deltas + amount.value) * tenTo places < Decimal.bound) :
    ∃ later, DepthDeltas.add price amount deltas = .ok later := by
  apply DepthDeltas.exists_add
  intro entry member same
  obtain ⟨entry_grid, entry_nonneg⟩ := exact entry member
  rw [← (Decimal.equiv_iff_value _ _).mp same] at small
  obtain ⟨sum, added, -⟩ := Decimal.add_exact entry_grid grid (by
    rw [abs_of_nonneg (add_nonneg entry_nonneg nonneg)]
    exact Decimal.scaled_lt (add_le_add_left (exact.le_taken member) _) small)
  exact ⟨sum, added⟩

/-- What adding up quantities comes to: for each price one entry with their sum. -/
structure Gathers (places : Nat) (quantities deltas : DepthDeltas) : Prop where
  exact : deltas.Exact places
  sums : ∀ p, taken p deltas = taken p quantities
  known : ∀ p, p ∈ prices deltas ↔ p ∈ prices quantities
  rising : (prices deltas).Pairwise (· < ·)

theorem Exact.gather {quantities : DepthDeltas} (exact : quantities.Exact places)
    (small : ∀ p, taken p quantities * tenTo places < Decimal.bound) :
    ∃ deltas, gather quantities = .ok deltas ∧ Gathers places quantities deltas := by
  induction quantities using List.reverseRecOn with
  | nil => exact ⟨[], rfl, nofun, fun _ => rfl, fun _ => Iff.rfl, .nil⟩
  | append_singleton front last ih =>
      obtain ⟨front_exact, last_exact⟩ := List.forall_mem_append.mp exact
      obtain ⟨grid, nonneg⟩ := last_exact last (List.mem_singleton_self last)
      obtain ⟨deltas, gathered, gathers⟩ := ih front_exact fun p =>
        Decimal.scaled_lt (by
          rw [taken_append]
          exact le_add_of_nonneg_right (Exact.taken_nonneg last_exact p)) (small p)
      have fits : (taken last.1.value deltas + last.2.value) * tenTo places < Decimal.bound := by
        have most := small last.1.value
        rwa [taken_append, ← gathers.sums, taken_cons, if_pos rfl, taken_nil, add_zero] at most
      obtain ⟨later, added⟩ := gathers.exact.exists_add grid nonneg fits
      obtain ⟨later_exact, sums⟩ := gathers.exact.add grid nonneg fits added
      refine ⟨later, ?_, later_exact, ?_, ?_, rising_add gathers.rising added⟩
      · unfold DepthDeltas.gather at gathered ⊢
        rw [List.foldlM_append, gathered]
        simp only [List.foldlM_cons, List.foldlM_nil, bind, Except.bind, added]
        rfl
      · intro p
        rw [sums, gathers.sums, taken_append, taken_cons, taken_nil, add_zero]
      · intro p
        rw [mem_prices_add added, gathers.known]
        simp [or_comm]

end Gather

end DepthDeltas

namespace DepthView

/-- Takes quantities off one by one, and tells for each whether that changed rows. -/
def removeEach (view : DepthView) :
    List (Decimal × Decimal) → Except Overflow (List Bool × DepthView)
  | [] => .ok ([], view)
  | (price, amount) :: rest => do
    let (changed, view) ← view.removeAt price amount
    let (answers, view) ← view.removeEach rest
    return (changed :: answers, view)

/-- Rows of different prices that show something, with exact amounts. -/
structure Distinct (places : Nat) (rows : List DepthRow) : Prop where
  apart : (prices rows).Nodup
  positive : ∀ row ∈ rows, 0 < row.amount
  exact : ∀ row ∈ rows, row.amount.OnGrid places ∧
    row.amount.value * tenTo places < Decimal.bound

def left (deltas : DepthDeltas) (row : ℚ × ℚ) : Option (ℚ × ℚ) :=
  if deltas.taken row.1 < row.2 then some (row.1, row.2 - deltas.taken row.1) else none

/-- The rows of which something is left. -/
def spare (deltas : DepthDeltas) (rows : List DepthRow) : List (ℚ × ℚ) :=
  (rows.map DepthRow.values).filterMap (left deltas)

section Spare
variable {places : Nat} {price amount : Decimal} {deltas others : DepthDeltas}
  {rows later : List DepthRow} {view : DepthView}

theorem spare_congr (same : ∀ p, deltas.taken p = others.taken p) :
    spare deltas rows = spare others rows := by
  have same_left : left deltas = left others := by
    funext row
    rw [left, left, same]
  rw [spare, spare, same_left]

theorem spare_append (exact : others.Exact places)
    (some : later.map DepthRow.values = spare deltas rows) :
    spare others later = spare (deltas ++ others) rows := by
  rw [spare, some, spare, spare, List.filterMap_filterMap]
  apply List.filterMap_congr
  intro row _
  have more := DepthDeltas.Exact.taken_nonneg exact row.1
  simp only [left, DepthDeltas.taken_append]
  by_cases enough : deltas.taken row.1 < row.2
  · rw [if_pos enough, Option.bind_some, left]
    by_cases still : deltas.taken row.1 + others.taken row.1 < row.2
    · rw [if_pos still, if_pos (lt_sub_iff_add_lt'.mpr still), sub_sub]
    · rw [if_neg still, if_neg (mt lt_sub_iff_add_lt'.mp still)]
  · rw [if_neg enough, if_neg, Option.bind_none]
    linarith

theorem spare_untouched (positive : ∀ row ∈ rows, 0 < row.amount)
    (untouched : ∀ row ∈ rows, deltas.taken row.price.value = 0) :
    spare deltas rows = rows.map DepthRow.values := by
  rw [spare, List.filterMap_map, List.filterMap_eq_map_iff_forall_eq_some]
  intro row member
  have some := Decimal.pos_iff.mp (positive row member)
  simp [left, DepthRow.values, untouched row member, some]

@[simp] theorem spare_rows_append (before after : List DepthRow) :
    spare deltas (before ++ after) = spare deltas before ++ spare deltas after := by
  simp [spare]

theorem spare_rows_cons (row : DepthRow) :
    spare deltas (row :: rows) = (left deltas row.values).toList ++ spare deltas rows := by
  cases rest : left deltas row.values <;> simp [spare, rest]

theorem spare_apart (positive : ∀ row ∈ rows, 0 < row.amount)
    (apart : ∀ row ∈ rows, ¬ row.price ≈ price) :
    spare [(price, amount)] rows = rows.map DepthRow.values := by
  apply spare_untouched positive
  intro row member
  have different := apart row member
  rw [Decimal.equiv_iff_value] at different
  simp [Ne.symm different]

theorem Distinct.around {before after : List DepthRow} {row : DepthRow}
    (distinct : Distinct places (before ++ row :: after)) (here : row.price ≈ price) :
    (∀ other ∈ before, ¬ other.price ≈ price) ∧ ∀ other ∈ after, ¬ other.price ≈ price := by
  have alone := distinct.apart
  rw [prices_append, prices_cons, List.nodup_middle, List.nodup_cons, List.mem_append,
    not_or] at alone
  simp only [Decimal.equiv_iff_value] at here ⊢
  rw [here] at alone
  exact ⟨fun other member same => alone.1.1 (mem_prices.mpr ⟨other, member, same⟩),
    fun other member same => alone.1.2 (mem_prices.mpr ⟨other, member, same⟩)⟩

theorem Distinct.removeRow {before after : List DepthRow} {row : DepthRow}
    (distinct : Distinct places (before ++ row :: after)) (here : row.price ≈ price)
    (grid : amount.OnGrid places) (nonneg : 0 ≤ amount.value)
    (fits : amount.value * tenTo places < Decimal.bound) :
    ∃ later, DepthView.removeRow price amount (before ++ row :: after) = .ok (some later) ∧
      Distinct places later ∧
      later.map DepthRow.values = spare [(price, amount)] (before ++ row :: after) := by
  obtain ⟨near, far⟩ := distinct.around here
  obtain ⟨apart, positive, exact⟩ := distinct
  obtain ⟨first_positive, rest_positive⟩ := List.forall_mem_append.mp positive
  obtain ⟨row_positive, last_positive⟩ := List.forall_mem_cons.mp rest_positive
  obtain ⟨first_exact, rest_exact⟩ := List.forall_mem_append.mp exact
  obtain ⟨⟨row_grid, small⟩, last_exact⟩ := List.forall_mem_cons.mp rest_exact
  have row_nonneg := (Decimal.pos_iff.mp row_positive).le
  obtain ⟨rest, subtracted, value⟩ :=
    Decimal.sub_small row_grid grid row_nonneg nonneg small fits
  have same := (Decimal.equiv_iff_value _ _).mp here
  refine ⟨_, removeRow_at row near here subtracted, ?_⟩
  rw [spare_rows_append, spare_rows_cons, spare_apart first_positive near,
    spare_apart last_positive far]
  have taken : DepthDeltas.taken row.price.value [(price, amount)] = amount.value := by
    simp [same]
  -- the row goes, or it stays with what is left
  by_cases none : rest ≤ 0
  · have fewer : (before ++ after).Sublist (before ++ row :: after) :=
      (List.sublist_cons_self row after).append_left before
    rw [if_pos none]
    rw [Decimal.nonpos_iff, value, sub_nonpos, ← not_lt] at none
    refine ⟨⟨apart.sublist (fewer.map _), fun other member => positive other (fewer.subset member),
      fun other member => exact other (fewer.subset member)⟩, ?_⟩
    simp [left, DepthRow.values, taken, none]
  · rw [if_neg none]
    rw [Decimal.not_nonpos_iff] at none
    have more : amount.value < row.amount.value := by rwa [value, sub_pos] at none
    refine ⟨⟨?_, ?_, ?_⟩, ?_⟩
    · simpa using apart
    · exact List.forall_mem_append.mpr ⟨first_positive,
        List.forall_mem_cons.mpr ⟨Decimal.pos_iff.mpr none, last_positive⟩⟩
    · refine List.forall_mem_append.mpr ⟨first_exact,
        List.forall_mem_cons.mpr
          ⟨⟨Decimal.onGrid_of_value_sub row_grid grid value, ?_⟩, last_exact⟩⟩
      exact Decimal.scaled_lt (by rw [value]; exact sub_le_self _ nonneg) small
    · simp [left, DepthRow.values, taken, more, value]

theorem Distinct.removeAt (price : Decimal) (distinct : Distinct places view.rows)
    (grid : amount.OnGrid places) (nonneg : 0 ≤ amount.value)
    (fits : amount.value * tenTo places < Decimal.bound) :
    ∃ changed later, view.removeAt price amount = .ok (changed, later) ∧
      Distinct places later.rows ∧
      later.rows.map DepthRow.values = spare [(price, amount)] view.rows ∧
      (changed = true ↔ price.value ∈ prices view.rows) := by
  unfold DepthView.removeAt
  by_cases there : ∃ row ∈ view.rows, row.price ≈ price
  · obtain ⟨row, member, here⟩ := there
    obtain ⟨before, after, split⟩ := List.append_of_mem member
    have whole := distinct
    rw [split] at whole
    obtain ⟨rows, removed, kept, spared⟩ := whole.removeRow here grid nonneg fits
    rw [← split] at removed spared
    rw [removed]
    have known : price.value ∈ prices view.rows :=
      mem_prices.mpr ⟨row, member, (Decimal.equiv_iff_value _ _).mp here⟩
    exact ⟨true, { view with rows }, rfl, kept, spared, fun _ => known, fun _ => rfl⟩
  · push Not at there
    rw [removeRow_absent there]
    refine ⟨false, view, rfl, distinct, (spare_apart distinct.positive there).symm, nofun, ?_⟩
    intro known
    obtain ⟨row, member, same⟩ := mem_prices.mp known
    exact absurd ((Decimal.equiv_iff_value _ _).mpr same) (there row member)

/-- Quantities can be taken off one after the other, and what is spared in the end depends
on their sums alone. A row changes if there is one at a price where something is taken. -/
theorem Distinct.removeMany (distinct : Distinct places view.rows) (exact : deltas.Exact places)
    (small : ∀ p, deltas.taken p * tenTo places < Decimal.bound) :
    ∃ changed later, view.removeMany deltas = .ok (changed, later) ∧
      later.rows.map DepthRow.values = spare deltas view.rows ∧
      (changed = true ↔ ∃ p ∈ deltas.prices, p ∈ prices view.rows) := by
  induction deltas generalizing view with
  | nil =>
      refine ⟨false, view, rfl, ?_, by simp⟩
      exact (spare_untouched distinct.positive fun _ _ => rfl).symm
  | cons entry rest ih =>
      obtain ⟨price, amount⟩ := entry
      obtain ⟨⟨grid, nonneg⟩, others⟩ := List.forall_mem_cons.mp exact
      have rest_exact : DepthDeltas.Exact places rest := others
      have fewer (p : ℚ) : DepthDeltas.taken p rest * tenTo places < Decimal.bound := by
        refine Decimal.scaled_lt ?_ (small p)
        rw [DepthDeltas.taken_cons]
        split_ifs
        · exact le_add_of_nonneg_left nonneg
        · exact (zero_add _).ge
      have fits : amount.value * tenTo places < Decimal.bound := by
        refine Decimal.scaled_lt ?_ (small price.value)
        rw [DepthDeltas.taken_cons, if_pos rfl]
        exact le_add_of_nonneg_right (rest_exact.taken_nonneg _)
      obtain ⟨first, middle, removed, kept, spared, found⟩ :=
        distinct.removeAt price grid nonneg fits
      obtain ⟨second, later, removed', spared', found'⟩ := ih kept rest_exact fewer
      refine ⟨first || second, later, ?_, ?_, ?_⟩
      · simp only [DepthView.removeMany, removed, removed', bind, Except.bind]
        rfl
      · rw [spared', spare_append rest_exact spared]
        rfl
      · rw [Bool.or_eq_true, found', DepthDeltas.prices_cons, List.exists_mem_cons_iff, ← found]
        cases first with
        | false => rw [(removeAt_follows removed).same rfl]
        | true => simp

theorem removeMany_eq_each (view : DepthView) (deltas : List (Decimal × Decimal)) :
    view.removeMany deltas =
      (view.removeEach deltas).map fun result => (result.1.any id, result.2) := by
  induction deltas generalizing view with
  | nil => rfl
  | cons entry rest ih =>
      obtain ⟨price, amount⟩ := entry
      simp only [DepthView.removeMany, DepthView.removeEach, bind, Except.bind]
      cases view.removeAt price amount with
      | error => rfl
      | ok first =>
          simp only [ih]
          cases first.2.removeEach rest <;> rfl

theorem Distinct.coalesced (distinct : Distinct places view.rows) (exact : deltas.Exact places)
    (small : ∀ p, deltas.taken p * tenTo places < Decimal.bound) :
    ∃ gathered changed batched answers each, DepthDeltas.gather deltas = .ok gathered ∧
      DepthDeltas.Gathers places deltas gathered ∧
      view.removeMany gathered = .ok (changed, batched) ∧
      view.removeEach deltas = .ok (answers, each) ∧
      List.Forall₂ DepthRow.Alike batched.rows each.rows ∧ (changed = true ↔ true ∈ answers) := by
  obtain ⟨gathered, adds, gathers⟩ := exact.gather small
  obtain ⟨changed, batched, together, spared, found⟩ := distinct.removeMany gathers.exact
    fun p => by rw [gathers.sums]; exact small p
  obtain ⟨told, last, apiece, spared', found'⟩ := distinct.removeMany exact small
  rw [removeMany_eq_each] at apiece
  cases steps : view.removeEach deltas with
  | error => rw [steps] at apiece; cases apiece
  | ok result =>
      rw [steps] at apiece
      cases apiece
      refine ⟨gathered, changed, batched, result.1, result.2, adds, gathers, together, rfl, ?_, ?_⟩
      · exact DepthRow.alike_of_values (by rw [spared, spared', spare_congr gathers.sums])
      · rw [found]
        simp only [gathers.known, ← found', List.any_eq_true, id, exists_eq_right]

end Spare

end DepthView

/-- What the limit orders among the makers gave in some deals, at their prices. -/
def consumed (deals : List (Order × Trade)) : List (Decimal × Decimal) :=
  deals.filterMap fun deal =>
    if deal.1.kind = .limit then some (deal.1.price, deal.2.amount) else none

namespace Pass

section Deals
variable {listing : Listing} {now : Instant} {order : Order}

/-- Whether a trade is that of an incoming order with one of some makers. -/
structure Made (now : Instant) (order : Order) (makers : Multiset Order)
    (deal : Order × Trade) : Prop where
  known : deal.1 ∈ makers
  positive : 0 < deal.2.amount
  between : deal.2 = .between order deal.1 deal.2.price deal.2.amount deal.2.money now

theorem gather_consumed {deals : List (Order × Trade)} {deltas later : DepthDeltas}
    {maker : Order} {trade : Trade} (gathered : DepthDeltas.gather (consumed deals) = .ok deltas)
    (added : (if maker.kind = .limit then DepthDeltas.add maker.price trade.amount deltas
      else .ok deltas) = .ok later) :
    DepthDeltas.gather (consumed (deals ++ [(maker, trade)])) = .ok later := by
  unfold DepthDeltas.gather at gathered ⊢
  rw [consumed, List.filterMap_append, ← consumed, List.foldlM_append, gathered]
  change List.foldlM _ deltas _ = _
  by_cases limit : maker.kind = .limit
  · rw [if_pos limit] at added
    simpa [limit] using added
  · rw [if_neg limit] at added
    have none : consumed [(maker, trade)] = [] := by simp [consumed, limit]
    exact (congrArg _ none).trans added

/-- What a pass reports as taken is what its limit makers gave, added up for each price. -/
theorem dealings_gathered {later : Pass} {makers left : Multiset Order}
    (steps : Dealings listing now (.start order) makers later left) :
    ∃ deals : List (Order × Trade), deals.map Prod.snd = later.trades.toList ∧
      (∀ deal ∈ deals, Made now order makers deal) ∧
      DepthDeltas.gather (consumed deals) = .ok later.deltas := by
  induction steps with
  | refl => exact ⟨[], rfl, by simp, rfl⟩
  | report _ _ ih => exact ih
  | @deal middle last others maker filled price amount money steps terms settled ih =>
      obtain ⟨deals, trades, made, gathered⟩ := ih
      obtain ⟨taker, records⟩ := dealings_terms steps
      -- the maker as it stood before the pass
      obtain ⟨giver, inside, same⟩ : ∃ giver ∈ makers, giver.terms = maker.terms := by
        have own := Multiset.mem_map_of_mem Order.terms (Multiset.mem_cons_self maker others)
        rw [records] at own
        exact Multiset.mem_map.mp own
      obtain ⟨-, -, pushed, -, deltas⟩ := settle_eq_ok settled
      rw [Trade.between_of_terms price amount money now taker same.symm] at pushed
      rw [← Order.kind_of_terms same, ← Order.price_of_terms same] at deltas
      refine ⟨deals ++ [(giver, .between order giver price amount money now)], ?_, ?_, ?_⟩
      · rw [List.map_append, trades, pushed, Array.toList_push]
        rfl
      · refine List.forall_mem_append.mpr ⟨made, List.forall_mem_singleton.mpr ?_⟩
        exact ⟨inside, terms.amount_pos, rfl⟩
      · exact gather_consumed gathered deltas

end Deals

end Pass

section Coalesced
variable {places : Nat}

theorem exact_consumed {deals : List (Order × Trade)}
    (positive : ∀ deal ∈ deals, 0 < deal.2.amount)
    (grid : ∀ trade ∈ deals.map Prod.snd, trade.amount.OnGrid places) :
    DepthDeltas.Exact places (consumed deals) := by
  intro entry member
  obtain ⟨deal, inside, given⟩ := List.mem_filterMap.mp member
  split_ifs at given with limit
  cases given
  exact ⟨grid _ (List.mem_map_of_mem inside), (Decimal.pos_iff.mp (positive deal inside)).le⟩

theorem taken_consumed_le {deals : List (Order × Trade)}
    (positive : ∀ deal ∈ deals, 0 < deal.2.amount) (p : ℚ) :
    DepthDeltas.taken p (consumed deals) ≤
      ((deals.map Prod.snd).map fun trade => trade.amount.value).sum := by
  induction deals with
  | nil => exact le_rfl
  | cons deal rest ih =>
      obtain ⟨first, others⟩ := List.forall_mem_cons.mp positive
      have some := Decimal.pos_iff.mp first
      have less := ih others
      rw [List.map_cons, List.map_cons, List.sum_cons]
      by_cases limit : deal.1.kind = .limit
      · have split : consumed (deal :: rest) = (deal.1.price, deal.2.amount) :: consumed rest := by
          simp [consumed, limit]
        rw [split, DepthDeltas.taken_cons]
        split_ifs <;> linarith
      · have same : consumed (deal :: rest) = consumed rest := by simp [consumed, limit]
        rw [same]
        linarith

end Coalesced

/-- Taking quantities off a depth view one by one, or added up for each price and at once,
comes to the same. It does for all rows of different prices and all quantities whose sums are
exact; and so at the end of a pass, where the opposing view is what it would be had each limit
order among the makers been taken off by the amount of its trade, one trade after the other,
and is reported as changed if any of these changed it. -/
theorem batched_removal_is_each (places : Nat) :
    (∀ (view : DepthView) (quantities : List (Decimal × Decimal)),
      DepthView.Distinct places view.rows → DepthDeltas.Exact places quantities →
      (∀ p, DepthDeltas.taken p quantities * tenTo places < Decimal.bound) →
      ∃ deltas changed batched answers each, DepthDeltas.gather quantities = .ok deltas ∧
        DepthDeltas.Gathers places quantities deltas ∧
        view.removeMany deltas = .ok (changed, batched) ∧
        view.removeEach quantities = .ok (answers, each) ∧
        List.Forall₂ DepthRow.Alike batched.rows each.rows ∧ (changed = true ↔ true ∈ answers)) ∧
    ∀ (listing : Listing) (actions : List Action) (history : History) (market later : Market)
      (now : Instant) (order : Order) (report : Report),
      Market.replay listing actions = .ok (history, market) →
      market.trade now order = .ok (.processed report, later) →
      (∀ row ∈ (market.depth order.side.opposite).rows, row.amount.OnGrid places ∧
        row.amount.value * tenTo places < Decimal.bound) →
      (∀ trade ∈ report.trades, trade.amount.OnGrid places) →
      (report.trades.map fun trade => trade.amount.value).sum * tenTo places < Decimal.bound →
      ∃ deals : List (Order × Trade), deals.map Prod.snd = report.trades ∧
        (∀ deal ∈ deals,
          Pass.Made now order (market.book.ordersOf order.side.opposite) deal) ∧
        ∃ answers each,
          (market.depth order.side.opposite).removeEach (consumed deals) = .ok (answers, each) ∧
          List.Forall₂ DepthRow.Alike (later.depth order.side.opposite).rows each.rows ∧
          (order.side.opposite ∈ report.depthChanged ↔ true ∈ answers) := by
  constructor
  · intro view quantities distinct exact small
    exact distinct.coalesced exact small
  · intro listing actions history market later now order report run traded exact grid small
    have ranked := Market.ranked_of_replay run order.side.opposite
    obtain ⟨pass, left, processes⟩ :=
      Market.processes_of_trade (Market.wellFormed_of_replay run).2 traded
    obtain ⟨deals, trades, made, gathered⟩ := Pass.dealings_gathered processes.dealings
    obtain ⟨after, depths, ended⟩ := processes.ended
    obtain ⟨changed, own, removed, reported⟩ := Market.depthChanged_of_finish ended
    have side : pass.taker.side = order.side :=
      Order.side_of_terms (Pass.dealings_terms processes.dealings).1
    rw [side, Market.depth_congr depths] at removed
    rw [side] at reported
    rw [← processes.trades] at trades
    have positive : ∀ deal ∈ deals, 0 < deal.2.amount := fun deal member =>
      (made deal member).positive
    have distinct : DepthView.Distinct places (market.depth order.side.opposite).rows :=
      ⟨ranked.prices_nodup, ranked.positive, exact⟩
    rw [← trades] at grid small
    obtain ⟨deltas, told, batched, answers, each, adds, -, together, apiece, alike, said⟩ :=
      distinct.coalesced (exact_consumed positive grid) fun p =>
        Decimal.scaled_lt (taken_consumed_le positive p) small
    obtain rfl : pass.deltas = deltas := Except.ok.inj (gathered.symm.trans adds)
    cases removed.symm.trans together
    refine ⟨deals, trades, made, answers, each, apiece, alike, ?_⟩
    rw [reported, ← said]
    have other := Side.opposite_ne order.side
    cases changed <;> cases own <;> simp [other]

def DepthView.sampleBids : DepthView :=
  ⟨.buy, 5, [⟨.ofParts 99 0, .ofParts 2 0⟩, ⟨.ofParts 101 0, .ofParts 5 0⟩]⟩

def DepthDeltas.sampleQuantities : List (Decimal × Decimal) :=
  [(.ofParts 99 0, .ofParts 1 0), (.ofParts 101 0, .ofParts 2 0), (.ofParts 990 1, .ofParts 3 0),
    (.ofParts 99 0, .ofParts 4 0)]

theorem sample_removal_is_each :
    (∃ deltas batched each, DepthDeltas.gather DepthDeltas.sampleQuantities = .ok deltas ∧
      DepthView.sampleBids.removeMany deltas = .ok (true, batched) ∧
      DepthView.sampleBids.removeEach DepthDeltas.sampleQuantities =
        .ok ([true, true, true, false], each) ∧
      List.Forall₂ DepthRow.Alike batched.rows each.rows ∧
      each.rows.map DepthRow.values = [(101, 3)]) ∧
    ∃ (market later : Market) (report : Report) (deals : List (Order × Trade)) (answers : List Bool)
        (each : DepthView),
      market.trade default History.sampleBid = .ok (.processed report, later) ∧
        deals.map Prod.snd = report.trades ∧ report.trades.length = 2 ∧
        (market.depth .sell).removeEach (consumed deals) = .ok (answers, each) ∧
        List.Forall₂ DepthRow.Alike (later.depth .sell).rows each.rows ∧
        (later.depth .sell).rows.map DepthRow.values = [(100, 4)] ∧ true ∈ answers := by
  constructor
  · have exact : DepthDeltas.Exact 0 DepthDeltas.sampleQuantities := by
      unfold DepthDeltas.Exact
      decide +kernel
    obtain ⟨deltas, changed, batched, answers, each, adds, -, together, apiece, alike, said⟩ :=
      (batched_removal_is_each 0).1 DepthView.sampleBids DepthDeltas.sampleQuantities
        ⟨by decide +kernel, by decide +kernel, by decide +kernel⟩ exact
        fun p => Decimal.scaled_lt (exact.taken_le p) (by decide +kernel)
    obtain ⟨last, steps, rows⟩ : ∃ last,
        DepthView.sampleBids.removeEach DepthDeltas.sampleQuantities =
          .ok ([true, true, true, false], last) ∧
        last.rows.map DepthRow.values = [(101, 3)] := ⟨_, rfl, by decide +kernel⟩
    obtain ⟨rfl, rfl⟩ := Prod.mk.inj (Except.ok.inj (apiece.symm.trans steps))
    obtain rfl : changed = true := said.mpr List.mem_cons_self
    exact ⟨deltas, batched, each, adds, together, steps, alike, rows⟩
  · obtain ⟨history, market, report, later, run, traded, row, grid, small, two, rows, told⟩ :
        ∃ history market report later,
          Market.replay (.named "coin") History.issueAsks = .ok (history, market) ∧
          market.trade default History.sampleBid = .ok (.processed report, later) ∧
          (∀ row ∈ (market.depth .sell).rows, row.amount.OnGrid 0 ∧
            row.amount.value * tenTo 0 < Decimal.bound) ∧
          (∀ trade ∈ report.trades, trade.amount.OnGrid 0) ∧
          (report.trades.map fun trade => trade.amount.value).sum * tenTo 0 < Decimal.bound ∧
          report.trades.length = 2 ∧
          (later.depth .sell).rows.map DepthRow.values = [(100, 4)] ∧
          .sell ∈ report.depthChanged :=
      ⟨_, _, _, _, rfl, rfl, by decide +kernel, by decide +kernel, by decide +kernel, rfl,
        by decide +kernel, by decide +kernel⟩
    obtain ⟨deals, trades, -, answers, each, apiece, alike, said⟩ :=
      (batched_removal_is_each 0).2 _ _ _ _ _ _ _ _ run traded row grid small
    exact ⟨market, later, report, deals, answers, each, traded, trades, two, apiece, alike, rows,
      said.mp told⟩

end SpotExchange
