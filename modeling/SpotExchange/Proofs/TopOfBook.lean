import SpotExchange.Proofs.RankedDepth
import SpotExchange.Proofs.PlaceCancel

/-!
What a view shows of the orders that were added to it. When nothing is taken off, its rows
are the best prices of all those orders, each with all that is offered there, in whatever
order they came. A price gives way only to as many better ones as there are rows, and those
better ones never leave but for others that are better still.
-/

namespace SpotExchange

namespace Order

def unfilled (order : Order) : ℚ :=
  match order.remaining with
  | .ok rest => rest.value
  | .error _ => 0

theorem unfilled_of_remaining {order : Order} {rest : Decimal}
    (left : order.remaining = .ok rest) : order.unfilled = rest.value := by
  rw [unfilled, left]

end Order

namespace DepthRow

def values (row : DepthRow) : ℚ × ℚ := (row.price.value, row.amount.value)

theorem alike_iff_values (a b : DepthRow) : a.Alike b ↔ a.values = b.values := by
  rw [values, values, Prod.mk.injEq, ← Decimal.equiv_iff_value, ← Decimal.equiv_iff_value]
  exact ⟨fun alike => ⟨alike.price, alike.amount⟩, fun same => ⟨same.1, same.2⟩⟩

theorem alike_of_values {rows others : List DepthRow}
    (same : rows.map values = others.map values) : List.Forall₂ DepthRow.Alike rows others := by
  rw [← List.forall₂_eq_eq_eq, List.forall₂_map_left_iff, List.forall₂_map_right_iff] at same
  exact same.imp fun a b => (alike_iff_values a b).mpr

end DepthRow

namespace Side

def Ahead (side : Side) (p q : ℚ) : Prop :=
  match side with
  | .buy => q < p
  | .sell => p < q

variable {side : Side} {p q r : ℚ}

theorem better_iff_ahead (side : Side) (a b : Decimal) :
    side.better a b = true ↔ side.Ahead a.value b.value := side.better_iff_value a b

theorem Ahead.trans (first : side.Ahead p q) (second : side.Ahead q r) : side.Ahead p r := by
  cases side
  · exact lt_trans second first
  · exact lt_trans first second

theorem Ahead.ne (ahead : side.Ahead p q) : p ≠ q := by
  cases side
  · exact ne_of_gt ahead
  · exact ne_of_lt ahead

instance : Std.Irrefl side.Ahead := ⟨fun _ ahead => ahead.ne rfl⟩

instance : Std.Antisymm side.Ahead := ⟨fun _ _ ahead back => absurd rfl (ahead.trans back).ne⟩

end Side

namespace DepthView

/-- The prices of some orders, each once, from the best one outward. -/
def bestPrices (side : Side) (orders : Multiset Order) : List ℚ :=
  let prices := (orders.map fun order => order.price.value).toFinset
  match side with
  | .buy => prices.sort (· ≥ ·)
  | .sell => prices.sort (· ≤ ·)

def offered (orders : Multiset Order) (p : ℚ) : ℚ :=
  ((orders.filter fun order => order.price.value = p).map Order.unfilled).sum

/-- The best prices of some orders, as many as there is room for, and what is offered there. -/
def topOfBook (side : Side) (maxDepth : Nat) (orders : Multiset Order) : List (ℚ × ℚ) :=
  ((bestPrices side orders).take maxDepth).map fun p => (p, offered orders p)

/-- Limit orders of one side with something left, which add up exactly. -/
structure Offers (places : Nat) (side : Side) (orders : Multiset Order) : Prop where
  limit : ∀ order ∈ orders, order.kind = .limit
  side_eq : ∀ order ∈ orders, order.side = side
  left : ∀ order ∈ orders, ∃ rest, order.remaining = .ok rest ∧ rest.OnGrid places ∧ 0 < rest
  small : (orders.map Order.unfilled).sum * tenTo places < Decimal.bound

section Offers
variable {places : Nat} {side : Side} {orders more : Multiset Order} {order : Order} {p : ℚ}

theorem mem_bestPrices : p ∈ bestPrices side orders ↔ ∃ order ∈ orders, order.price.value = p := by
  cases side <;> simp [bestPrices]

theorem mem_bestPrices_cons : p ∈ bestPrices side (order ::ₘ orders) ↔
    p = order.price.value ∨ p ∈ bestPrices side orders := by
  simp [mem_bestPrices, eq_comm]

theorem bestPrices_sorted (side : Side) (orders : Multiset Order) :
    (bestPrices side orders).Pairwise side.Ahead := by
  cases side
  · exact (Finset.sortedGT_sort _).pairwise
  · exact (Finset.sortedLT_sort _).pairwise

@[simp] theorem offered_cons (order : Order) : offered (order ::ₘ orders) p =
    (if order.price.value = p then order.unfilled else 0) + offered orders p := by
  unfold offered
  by_cases here : order.price.value = p <;> simp [here]

theorem offered_absent (absent : ∀ order ∈ orders, order.price.value ≠ p) :
    offered orders p = 0 := by
  rw [offered, Multiset.filter_eq_nil.mpr absent, Multiset.map_zero, Multiset.sum_zero]

theorem Offers.unfilled_pos (offers : Offers places side orders) (member : order ∈ orders) :
    0 < order.unfilled := by
  obtain ⟨rest, left, -, positive⟩ := offers.left order member
  rw [Order.unfilled_of_remaining left]
  exact Decimal.pos_iff.mp positive

theorem Offers.of_add (offers : Offers places side (orders + more)) :
    Offers places side orders := by
  have inside {order : Order} (member : order ∈ orders) : order ∈ orders + more :=
    Multiset.mem_add.mpr (Or.inl member)
  refine ⟨fun _ member => offers.limit _ (inside member),
    fun _ member => offers.side_eq _ (inside member),
    fun _ member => offers.left _ (inside member), Decimal.scaled_lt ?_ offers.small⟩
  rw [Multiset.map_add, Multiset.sum_add]
  refine le_add_of_nonneg_right (Multiset.sum_nonneg ?_)
  intro amount member
  obtain ⟨order, behind, rfl⟩ := Multiset.mem_map.mp member
  exact (offers.unfilled_pos (Multiset.mem_add.mpr (Or.inr behind))).le

theorem Offers.small_at (offers : Offers places side orders) (p : ℚ) :
    offered orders p * tenTo places < Decimal.bound := by
  have parts : orders.filter (fun order => order.price.value = p) +
      orders.filter (fun order => ¬ order.price.value = p) = orders :=
    Multiset.filter_add_not _ _
  rw [← parts] at offers
  exact offers.of_add.small

end Offers

def prices (rows : List DepthRow) : List ℚ := rows.map fun row => row.price.value

theorem mem_prices {rows : List DepthRow} {p : ℚ} :
    p ∈ prices rows ↔ ∃ row ∈ rows, row.price.value = p := List.mem_map

@[simp] theorem prices_cons (row : DepthRow) (rows : List DepthRow) :
    prices (row :: rows) = row.price.value :: prices rows := rfl

@[simp] theorem prices_append (before after : List DepthRow) :
    prices (before ++ after) = prices before ++ prices after := List.map_append

@[simp] theorem length_prices (rows : List DepthRow) : (prices rows).length = rows.length :=
  List.length_map _

theorem Sorted.prices {side : Side} {rows : List DepthRow} (sorted : Sorted side rows) :
    (prices rows).Pairwise side.Ahead :=
  List.pairwise_map.mpr (sorted.imp fun better => (side.better_iff_ahead _ _).mp better)

/-- Rows that show the best of what some orders offer: at its price each shows all that is
offered there, and a price without a row is behind as many rows as there is room for. -/
structure Tops (places : Nat) (side : Side) (maxDepth : Nat) (orders : Multiset Order)
    (rows : List DepthRow) : Prop where
  tidy : Tidy places side rows
  few : rows.length ≤ maxDepth
  known : prices rows ⊆ bestPrices side orders
  shows : ∀ p ∈ prices rows, shown rows p = offered orders p
  behind : ∀ p ∈ bestPrices side orders, p ∉ prices rows →
    rows.length = maxDepth ∧ ∀ q ∈ prices rows, side.Ahead q p

section Tops
variable {places : Nat} {side : Side} {maxDepth : Nat} {orders : Multiset Order}
  {rows : List DepthRow} {order : Order} {remaining : Decimal}

theorem Tops.empty : Tops places side maxDepth 0 [] where
  tidy := ⟨.nil, nofun, nofun⟩
  few := Nat.zero_le _
  known := List.nil_subset _
  shows := nofun
  behind := by simp [mem_bestPrices]

theorem Tops.grow {before after : List DepthRow} {row : DepthRow} {sum : Decimal}
    (tops : Tops places side maxDepth orders (before ++ row :: after))
    (here : row.price.value = order.price.value) (left : order.unfilled = remaining.value)
    (grid : remaining.OnGrid places) (positive : 0 < remaining.value)
    (small : offered (order ::ₘ orders) order.price.value * tenTo places < Decimal.bound)
    (added : row.amount.add remaining = .ok sum) :
    Tops places side maxDepth (order ::ₘ orders)
      (before ++ { row with amount := sum } :: after) := by
  obtain ⟨tidy, few, known, shows, behind⟩ := tops
  have same : prices (before ++ { row with amount := sum } :: after) =
      prices (before ++ row :: after) := by simp [prices]
  have member : row ∈ before ++ row :: after := List.mem_append_right _ List.mem_cons_self
  have own : order.price.value ∈ prices (before ++ row :: after) :=
    mem_prices.mpr ⟨row, member, here⟩
  rw [offered_cons, if_pos rfl, ← shows _ own, ← here, shown_of_mem tidy.sorted member, left,
    add_comm] at small
  obtain ⟨grown, more⟩ := tidy.grow grid positive small added
  refine ⟨grown, by simpa using few, ?_, ?_, ?_⟩
  · rw [same]
    exact fun p inside => mem_bestPrices_cons.mpr (Or.inr (known inside))
  · rw [same]
    intro p inside
    rw [more, shows p inside, offered_cons, here, left, add_comm]
  · rw [same, ← length_prices, same, length_prices]
    intro p inside absent
    rcases mem_bestPrices_cons.mp inside with rfl | earlier
    · exact absurd own absent
    · exact behind p earlier absent

section Slot
variable {before after : List DepthRow}

theorem Tops.fresh (tops : Tops places side maxDepth orders (before ++ after))
    (near : ∀ row ∈ before, side.better row.price order.price = true)
    (far : ∀ row ∈ after, side.better order.price row.price = true)
    (room : before.length < maxDepth) : order.price.value ∉ bestPrices side orders := by
  intro inside
  obtain ⟨full, ahead⟩ := tops.behind _ inside (by
    rw [mem_prices]
    rintro ⟨row, member, same⟩
    rcases List.mem_append.mp member with first | last
    · exact Side.value_ne_of_better (near row first) same
    · exact Side.value_ne_of_better (far row last) same.symm)
  cases after with
  | nil =>
      rw [List.append_nil] at full
      omega
  | cons row rest =>
      have there : row.price.value ∈ prices (before ++ row :: rest) := by simp [prices]
      have better := (side.better_iff_ahead _ _).mp (far row List.mem_cons_self)
      exact (better.trans (ahead _ there)).ne rfl

theorem Tops.slot {spare : Nat}
    (tops : Tops places side (before.length + spare + 1) orders (before ++ after))
    (near : ∀ row ∈ before, side.better row.price order.price = true)
    (far : ∀ row ∈ after, side.better order.price row.price = true)
    (left : order.unfilled = remaining.value) (grid : remaining.OnGrid places)
    (positive : 0 < remaining.value) :
    Tops places side (before.length + spare + 1) (order ::ₘ orders)
      (before ++ ⟨order.price, remaining⟩ :: after.take spare) := by
  have fresh := tops.fresh near far (by omega)
  obtain ⟨tidy, few, known, shows, behind⟩ := tops
  obtain ⟨kept, here, elsewhere⟩ :=
    tidy.slot (List.take_sublist spare after) near far grid positive
  have whole : (prices (before ++ ⟨order.price, remaining⟩ :: after)).Pairwise side.Ahead :=
    (tidy.sorted.insert (List.Sublist.refl after) near far).prices
  have old {p : ℚ} (inside : p ∈ prices (before ++ ⟨order.price, remaining⟩ :: after.take spare)) :
      p = order.price.value ∨ p ∈ prices (before ++ after) := by
    simp only [prices_append, prices_cons, List.mem_append, List.mem_cons] at inside ⊢
    rcases inside with first | new | last
    · exact Or.inr (Or.inl first)
    · exact Or.inl new
    · exact Or.inr (Or.inr (((List.take_sublist spare after).map _).subset last))
  refine ⟨kept, ?_, ?_, ?_, ?_⟩
  · simp only [List.length_append, List.length_cons, List.length_take]
    omega
  · exact fun p inside => mem_bestPrices_cons.mpr ((old inside).imp_right (@known p))
  · intro p inside
    rw [offered_cons]
    by_cases at_price : order.price.value = p
    · subst at_price
      rw [if_pos rfl, here, left, shown_absent, offered_absent, add_comm]
      · exact fun other member same => fresh (mem_bestPrices.mpr ⟨other, member, same⟩)
      · intro row member same
        exact fresh (same ▸ known (mem_prices.mpr ⟨row, member, rfl⟩))
    · rw [if_neg at_price, zero_add, ← shows p ((old inside).resolve_left (Ne.symm at_price))]
      rcases elsewhere p (Ne.symm at_price) with same | ⟨_, -, -, absent⟩
      · exact same
      · obtain ⟨row, member, same⟩ := mem_prices.mp inside
        exact absurd same (absent row member)
  · intro p inside absent
    -- a price without a row now is that of a row that gave way, or behind one
    obtain ⟨q, given, beyond⟩ : ∃ q ∈ prices (after.drop spare), q = p ∨ side.Ahead q p := by
      have earlier := (mem_bestPrices_cons.mp inside).resolve_left (by
        rintro rfl
        simp at absent)
      by_cases there : p ∈ prices (before ++ after)
      · refine ⟨p, ?_, Or.inl rfl⟩
        rw [← List.take_append_drop spare after] at there
        simp only [prices_append, prices_cons, List.mem_append, List.mem_cons, not_or]
          at there absent
        rcases there with first | near | last
        · exact absurd first absent.1
        · exact absurd near absent.2.2
        · exact last
      · obtain ⟨full, ahead⟩ := behind p earlier there
        rw [List.length_append] at full
        obtain ⟨row, member⟩ := List.exists_mem_of_length_pos
          (show 0 < (after.drop spare).length by rw [List.length_drop]; omega)
        refine ⟨row.price.value, mem_prices.mpr ⟨row, member, rfl⟩, Or.inr (ahead _ ?_)⟩
        exact mem_prices.mpr
          ⟨row, List.mem_append_right _ ((List.drop_sublist spare after).subset member), rfl⟩
    constructor
    · have some := List.length_pos_of_mem given
      rw [length_prices, List.length_drop] at some
      simp only [List.length_append, List.length_cons, List.length_take]
      omega
    · intro r member
      rw [← List.take_append_drop spare after, ← List.cons_append, ← List.append_assoc,
        prices_append] at whole
      have ahead := (List.pairwise_append.mp whole).2.2 r member q given
      rcases beyond with rfl | further
      · exact ahead
      · exact ahead.trans further

theorem Tops.refuse (tops : Tops places side maxDepth orders rows)
    (full : rows.length = maxDepth)
    (near : ∀ row ∈ rows, side.better row.price order.price = true) :
    Tops places side maxDepth (order ::ₘ orders) rows := by
  obtain ⟨tidy, few, known, shows, behind⟩ := tops
  have ahead : ∀ p ∈ prices rows, side.Ahead p order.price.value :=
    List.forall_mem_map.mpr fun row member => (side.better_iff_ahead _ _).mp (near row member)
  refine ⟨tidy, few, ?_, ?_, ?_⟩
  · exact fun p inside => mem_bestPrices_cons.mpr (Or.inr (known inside))
  · intro p inside
    rw [shows p inside, offered_cons, if_neg (ahead p inside).ne.symm, zero_add]
  · intro p inside absent
    rcases mem_bestPrices_cons.mp inside with rfl | earlier
    · exact ⟨full, ahead⟩
    · exact behind p earlier absent

end Slot

/-- Whatever becomes of an order that is added, the rows show the best of what is offered. -/
theorem Tops.insertRow {result : Option (List DepthRow)}
    (tops : Tops places side maxDepth orders rows) (left : order.unfilled = remaining.value)
    (grid : remaining.OnGrid places) (positive : 0 < remaining.value)
    (small : offered (order ::ₘ orders) order.price.value * tenTo places < Decimal.bound)
    (inserted : DepthView.insertRow side order.price remaining maxDepth rows = .ok result) :
    Tops places side maxDepth (order ::ₘ orders) (result.getD rows) := by
  rcases insertRow_cases tops.tidy.sorted inserted with
    ⟨before, row, after, sum, rfl, here, added, rfl⟩ | ⟨before, after, rfl, near, far, rfl⟩
  · exact tops.grow here left grid positive small added
  · by_cases room : before.length < maxDepth
    · obtain ⟨spare, rfl⟩ := Nat.exists_eq_add_of_lt room
      rw [if_pos room, Option.getD_some, add_assoc, List.take_length_add_append,
        List.take_succ_cons, ← add_assoc]
      exact tops.slot near far left grid positive
    · have few := tops.few
      rw [List.length_append] at few
      obtain rfl : after = [] := List.eq_nil_of_length_eq_zero (by omega)
      rw [if_neg room, Option.getD_none]
      rw [List.append_nil] at tops ⊢
      exact tops.refuse (le_antisymm tops.few (not_lt.mp room)) near

theorem Tops.exists_insertRow (tops : Tops places side maxDepth orders rows)
    (left : order.unfilled = remaining.value) (grid : remaining.OnGrid places)
    (positive : 0 < remaining.value)
    (small : offered (order ::ₘ orders) order.price.value * tenTo places < Decimal.bound) :
    ∃ result, DepthView.insertRow side order.price remaining maxDepth rows = .ok result := by
  apply DepthView.exists_insertRow
  intro row member same
  rw [Decimal.equiv_iff_value] at same
  rw [offered_cons, if_pos rfl, ← same, ← tops.shows _ (mem_prices.mpr ⟨row, member, rfl⟩),
    shown_of_mem tops.tidy.sorted member, left, add_comm] at small
  obtain ⟨sum, added, -⟩ := Decimal.add_exact (tops.tidy.grid row member) grid
    (by rwa [abs_of_pos (add_pos (tops.tidy.positive row member) positive)])
  exact ⟨sum, added⟩

theorem Tops.insert (tops : Tops places side maxDepth orders rows)
    (offers : Offers places side (order ::ₘ orders)) : ∃ changed later,
      (⟨side, maxDepth, rows⟩ : DepthView).insert order = .ok (changed, ⟨side, maxDepth, later⟩) ∧
        Tops places side maxDepth (order ::ₘ orders) later := by
  have own : order ∈ order ::ₘ orders := Multiset.mem_cons_self order orders
  obtain ⟨remaining, rest, grid, more⟩ := offers.left order own
  have left := Order.unfilled_of_remaining rest
  have small := offers.small_at order.price.value
  obtain ⟨result, inserted⟩ := tops.exists_insertRow left grid (Decimal.pos_iff.mp more) small
  have kept := tops.insertRow left grid (Decimal.pos_iff.mp more) small inserted
  have unspent : ¬ remaining ≤ 0 := Decimal.not_nonpos_iff.mpr (Decimal.pos_iff.mp more)
  have covers : (⟨side, maxDepth, rows⟩ : DepthView).covers order = true := by
    simp [DepthView.covers, offers.limit order own, offers.side_eq order own]
  simp only [DepthView.insert, covers, rest, inserted, unspent, ↓reduceIte, bind, Except.bind]
  cases result with
  | none => exact ⟨false, rows, rfl, kept⟩
  | some later => exact ⟨true, later, rfl, kept⟩

theorem Tops.insertAll {more : List Order} (tops : Tops places side maxDepth orders rows)
    (offers : Offers places side (orders + more)) : ∃ later,
      (⟨side, maxDepth, rows⟩ : DepthView).applyAll (more.map .insert) =
          .ok ⟨side, maxDepth, later⟩ ∧
        Tops places side maxDepth (orders + more) later := by
  induction more generalizing orders rows with
  | nil => exact ⟨rows, rfl, by simpa using tops⟩
  | cons order rest ih =>
      have onward : orders + ↑(order :: rest) = (order ::ₘ orders) + ↑rest := by
        rw [← Multiset.cons_coe, Multiset.add_cons, Multiset.cons_add]
      rw [onward] at offers ⊢
      obtain ⟨changed, middle, inserted, kept⟩ := tops.insert offers.of_add
      obtain ⟨later, others, shows⟩ := ih kept offers
      refine ⟨later, ?_, shows⟩
      simp only [List.map_cons, applyAll, DepthView.apply, inserted, bind, Except.bind]
      exact others

/-- Such rows have the best prices that are offered, and those alone. -/
theorem Tops.prices_eq (tops : Tops places side maxDepth orders rows) :
    prices rows = (bestPrices side orders).take maxDepth := by
  obtain ⟨tidy, few, known, shows, behind⟩ := tops
  have others : ∀ p ∈ (bestPrices side orders).filter (· ∉ prices rows),
      p ∈ bestPrices side orders ∧ p ∉ prices rows := by
    simp
  have whole : bestPrices side orders =
      prices rows ++ (bestPrices side orders).filter (· ∉ prices rows) := by
    refine (bestPrices_sorted side orders).eq_of_mem_iff (List.pairwise_append.mpr
      ⟨tidy.sorted.prices, (bestPrices_sorted side orders).filter _, ?_⟩) ?_
    · intro p there q beyond
      obtain ⟨offered, absent⟩ := others q beyond
      exact (behind q offered absent).2 p there
    · intro p
      have offered := @known p
      by_cases there : p ∈ prices rows <;> simp [there, offered]
  rw [whole]
  cases rest : (bestPrices side orders).filter (· ∉ prices rows) with
  | nil => rw [List.append_nil, List.take_of_length_le (by simpa using few)]
  | cons p _ =>
      obtain ⟨offered, absent⟩ := others p (rest ▸ List.mem_cons_self)
      rw [List.take_left' ((length_prices rows).trans (behind p offered absent).1)]

theorem Tops.values_eq (tops : Tops places side maxDepth orders rows) :
    rows.map DepthRow.values = topOfBook side maxDepth orders := by
  rw [topOfBook, ← tops.prices_eq, prices, List.map_map]
  apply List.map_congr_left
  intro row member
  have shows := tops.shows _ (mem_prices.mpr ⟨row, member, rfl⟩)
  rw [shown_of_mem tops.tidy.sorted member] at shows
  rw [DepthRow.values, Function.comp_apply, shows]

end Tops

end DepthView

section Inserts
variable {places : Nat} {side : Side}

/-- Limit orders of one side that are added to an empty view make it show the best prices
among them, as many as it has room for, and at each the sum of what remains of all the orders
there. So in another order they make it show the same. -/
theorem inserts_show_top (maxDepth : Nat) {orders : List Order}
    (offers : DepthView.Offers places side orders) : ∃ view,
      (DepthView.empty side maxDepth).applyAll (orders.map .insert) = .ok view ∧
        view.rows.map DepthRow.values = DepthView.topOfBook side maxDepth orders ∧
        ∀ shuffled : List Order, shuffled.Perm orders → ∃ other,
          (DepthView.empty side maxDepth).applyAll (shuffled.map .insert) = .ok other ∧
            List.Forall₂ DepthRow.Alike other.rows view.rows := by
  have shows (some : List Order) (offers : DepthView.Offers places side some) : ∃ view,
      (DepthView.empty side maxDepth).applyAll (some.map .insert) = .ok view ∧
        view.rows.map DepthRow.values = DepthView.topOfBook side maxDepth some := by
    have start : DepthView.Tops places side maxDepth 0 [] := .empty
    rw [← zero_add (some : Multiset Order)] at offers ⊢
    obtain ⟨rows, ran, tops⟩ := start.insertAll offers
    exact ⟨⟨side, maxDepth, rows⟩, ran, tops.values_eq⟩
  obtain ⟨view, ran, top⟩ := shows orders offers
  refine ⟨view, ran, top, ?_⟩
  intro shuffled same
  have known : (shuffled : Multiset Order) = orders := Multiset.coe_eq_coe.mpr same
  obtain ⟨other, ran', top'⟩ := shows shuffled (known ▸ offers)
  exact ⟨other, ran', DepthRow.alike_of_values (by rw [top', top, known])⟩

def History.shownBids : List Order :=
  [{ issueBid with price := .ofParts 98 0 }, issueBid, { issueBid with price := .ofParts 99 0 },
    { issueBid with price := .ofParts 98 0 }, { issueBid with price := .ofParts 990 1 }]

theorem sample_inserts_show_top : ∃ view other,
    (DepthView.empty .buy 2).applyAll (History.shownBids.map .insert) = .ok view ∧
      view.rows.map DepthRow.values = [(101, 5), (99, 10)] ∧
      DepthView.topOfBook .buy 2 History.shownBids = [(101, 5), (99, 10)] ∧
      (DepthView.empty .buy 2).applyAll (History.shownBids.reverse.map .insert) = .ok other ∧
      List.Forall₂ DepthRow.Alike other.rows view.rows := by
  have five : ∀ order ∈ History.shownBids, order.remaining = .ok (.ofParts 5 0) := by decide +kernel
  have offers : DepthView.Offers 0 .buy History.shownBids :=
    ⟨by decide +kernel, by decide +kernel,
      fun order member => ⟨_, five order member, by decide +kernel, by decide +kernel⟩,
      by decide +kernel⟩
  obtain ⟨view, ran, rows⟩ : ∃ view,
      (DepthView.empty .buy 2).applyAll (History.shownBids.map .insert) = .ok view ∧
        view.rows.map DepthRow.values = [(101, 5), (99, 10)] := ⟨_, rfl, by decide +kernel⟩
  obtain ⟨same, ran', top, shuffled⟩ := inserts_show_top 2 offers
  obtain rfl : view = same := Except.ok.inj (ran.symm.trans ran')
  obtain ⟨other, again, alike⟩ := shuffled _ (List.reverse_perm _)
  exact ⟨view, other, ran, rows, top.symm.trans rows, again, alike⟩

end Inserts

end SpotExchange
