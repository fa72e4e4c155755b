import SpotExchange.Proofs.ExactQuantity
import SpotExchange.Proofs.DepthRows
import SpotExchange.Proofs.PriceSums

/-!
How much stands at a price, and what a pass takes from there. The quantities that
a pass reports to the depth view are just what its deals took from limit orders,
whichever way they were matched.
-/

namespace SpotExchange

namespace Order

/-- What an order adds to what stands on a side at a price: a limit order what is
left of it, any other order nothing. -/
def offers (side : Side) (p : ℚ) (order : Order) : ℚ :=
  if order.kind = .limit ∧ order.side = side ∧ order.price.value = p then order.left else 0

/-- An order of a book whose quantity is exact, and which is done only when it is
spent. -/
structure Listed (places : Nat) (order : Order) : Prop where
  counted : order.Counted places
  amount_nonneg : 0 ≤ order.amount.value
  spent : order.isCompleted = true → order.Spent

section Offers
variable {places : Nat} {side : Side} {p : ℚ} {order : Order}

theorem Listed.of_limit (listed : order.Listed places) (limit : order.kind = .limit) :
    order.Exact places :=
  listed.counted.of_exact (by simp [isMarketBuy, limit])

theorem Listed.offers_nonneg (listed : order.Listed places) : 0 ≤ order.offers side p := by
  unfold offers
  split_ifs with here
  · exact (listed.of_limit here.1).left_nonneg
  · exact le_rfl

theorem Listed.offers_le (listed : order.Listed places) :
    order.offers side p ≤ order.amount.value := by
  unfold offers
  split_ifs with here
  · exact (listed.of_limit here.1).left_le
  · exact listed.amount_nonneg

theorem Listed.offers_of_completed (listed : order.Listed places)
    (done : order.isCompleted = true) : order.offers side p = 0 := by
  unfold offers
  split_ifs with here
  · have exact := listed.of_limit here.1
    have none := (spent_iff_left exact.quantity).mp (listed.spent done)
    exact le_antisymm none exact.left_nonneg
  · rfl

theorem offers_of_side (other : order.side ≠ side) : order.offers side p = 0 :=
  if_neg fun here => other here.2.1

theorem offers_of_market (market : order.kind = .market) : order.offers side p = 0 := by
  rw [offers, if_neg]
  rintro ⟨limit, -⟩
  rw [market] at limit
  cases limit

end Offers

end Order

/-- How much limit orders leave on a side at a price. -/
def standing (side : Side) (p : ℚ) (orders : Multiset Order) : ℚ :=
  (orders.map (Order.offers side p)).sum

section Standing
variable {places : Nat} {side : Side} {p : ℚ} {orders : Multiset Order}

@[simp] theorem standing_add (first second : Multiset Order) :
    standing side p (first + second) = standing side p first + standing side p second := by
  rw [standing, Multiset.map_add, Multiset.sum_add]
  rfl

@[simp] theorem standing_cons (order : Order) :
    standing side p (order ::ₘ orders) = order.offers side p + standing side p orders := by
  rw [standing, Multiset.map_cons, Multiset.sum_cons]
  rfl

theorem standing_nonneg (side : Side) (p : ℚ) (listed : ∀ order ∈ orders, order.Listed places) :
    0 ≤ standing side p orders := by
  apply Multiset.sum_nonneg
  intro amount member
  obtain ⟨order, inside, rfl⟩ := Multiset.mem_map.mp member
  exact (listed order inside).offers_nonneg

theorem standing_le (side : Side) (p : ℚ) (listed : ∀ order ∈ orders, order.Listed places) :
    standing side p orders ≤ (orders.map fun order => order.amount.value).sum :=
  Multiset.sum_map_le_sum_map _ _ fun order member => (listed order member).offers_le

theorem standing_eq_zero (none : ∀ order ∈ orders, order.offers side p = 0) :
    standing side p orders = 0 := by
  apply Multiset.sum_eq_zero
  intro amount member
  obtain ⟨order, inside, rfl⟩ := Multiset.mem_map.mp member
  exact none order inside

end Standing

namespace DepthDeltas

def taken (p : ℚ) (deltas : DepthDeltas) : ℚ :=
  (deltas.map fun entry => if entry.1.value = p then entry.2.value else 0).sum

def Exact (places : Nat) (deltas : DepthDeltas) : Prop :=
  ∀ entry ∈ deltas, entry.2.OnGrid places ∧ 0 ≤ entry.2.value

section Taken
variable {places : Nat} {p : ℚ} {price amount : Decimal} {deltas later : DepthDeltas}

@[simp] theorem taken_nil : taken p [] = 0 := rfl

@[simp] theorem taken_cons (entry : Decimal × Decimal) : taken p (entry :: deltas) =
    (if entry.1.value = p then entry.2.value else 0) + taken p deltas := List.sum_cons

@[simp] theorem taken_append (deltas later : DepthDeltas) :
    taken p (deltas ++ later) = taken p deltas + taken p later := by
  rw [taken, List.map_append, List.sum_append]
  rfl

theorem Exact.taken_nonneg (exact : deltas.Exact places) (p : ℚ) : 0 ≤ taken p deltas := by
  apply List.sum_nonneg
  intro amount member
  obtain ⟨entry, inside, rfl⟩ := List.mem_map.mp member
  split_ifs
  · exact (exact entry inside).2
  · exact le_rfl

theorem Exact.le_taken (exact : deltas.Exact places) {entry : Decimal × Decimal}
    (member : entry ∈ deltas) : entry.2.value ≤ taken entry.1.value deltas := by
  refine List.single_le_sum ?_ _ (List.mem_map.mpr ⟨entry, member, if_pos rfl⟩)
  intro amount inside
  obtain ⟨other, there, rfl⟩ := List.mem_map.mp inside
  split_ifs
  · exact (exact other there).2
  · exact le_rfl

theorem Exact.add (exact : deltas.Exact places) (grid : amount.OnGrid places)
    (nonneg : 0 ≤ amount.value)
    (small : (taken price.value deltas + amount.value) * tenTo places < Decimal.bound)
    (added : DepthDeltas.add price amount deltas = .ok later) :
    later.Exact places ∧
      ∀ p, taken p later = taken p deltas + if price.value = p then amount.value else 0 := by
  rcases add_cases added with ⟨before, known, held, after, sum, rfl, same, total, rfl⟩ |
    ⟨before, after, rfl, -, -, rfl⟩
  · -- the entry of this price grows
    have least := exact.le_taken (List.mem_append_right before List.mem_cons_self)
    obtain ⟨first, rest⟩ := List.forall_mem_append.mp exact
    obtain ⟨⟨held_grid, held_nonneg⟩, last⟩ := List.forall_mem_cons.mp rest
    obtain ⟨exact_sum, equal, value⟩ := Decimal.add_exact held_grid grid (by
      rw [abs_of_nonneg (add_nonneg held_nonneg nonneg)]
      rw [same] at least
      exact Decimal.scaled_lt (add_le_add_left least _) small)
    obtain rfl : exact_sum = sum := Except.ok.inj (equal.symm.trans total)
    refine ⟨List.forall_mem_append.mpr ⟨first, List.forall_mem_cons.mpr
      ⟨⟨Decimal.onGrid_of_value_add held_grid grid value, ?_⟩, last⟩⟩, ?_⟩
    · rw [value]
      exact add_nonneg held_nonneg nonneg
    · intro p
      simp only [taken_append, taken_cons, same, value]
      split_ifs <;> ring
  · -- a new entry comes in between
    obtain ⟨first, last⟩ := List.forall_mem_append.mp exact
    refine ⟨List.forall_mem_append.mpr ⟨first, List.forall_mem_cons.mpr ⟨⟨grid, nonneg⟩, last⟩⟩,
      fun p => ?_⟩
    simp only [taken_append, taken_cons]
    ring

end Taken

end DepthDeltas

namespace Pass

section Deals
variable {places : Nat} {listing : Listing} {now : Instant}

theorem listed_keeps (fewer : listing.baseScale ≤ places) :
    Keeps listing (Order.Listed places) := by
  intro taker maker taken given price amount money own other terms took gave
  obtain ⟨counted, counted'⟩ := counted_keeps fewer own.counted other.counted terms took gave
  obtain ⟨-, -, same, done, -⟩ :=
    Order.fill_of_open (Order.not_terminal_of_open terms.taker_open) took
  obtain ⟨-, -, same', done', -⟩ :=
    Order.fill_of_open (Order.not_terminal_of_open terms.maker_open) gave
  constructor
  · exact ⟨counted, Order.amount_of_terms same ▸ own.amount_nonneg, done.mp⟩
  · exact ⟨counted', Order.amount_of_terms same' ▸ other.amount_nonneg, done'.mp⟩

theorem sides_of_dealings {pass later : Pass} {makers left : Multiset Order} {side : Side}
    (steps : Dealings listing now pass makers later left)
    (sides : ∀ maker ∈ makers, maker.side = side) : ∀ record ∈ left, record.side = side := by
  intro record member
  have known := Multiset.mem_map_of_mem Order.terms member
  rw [(dealings_terms steps).2] at known
  obtain ⟨maker, inside, same⟩ := Multiset.mem_map.mp known
  rw [← Order.side_of_terms same]
  exact sides maker inside

/-- What stands at a price after some deals, and what they reported as taken there,
is what stood there before. -/
theorem dealings_standing {pass later : Pass} {makers left : Multiset Order} {side : Side}
    (steps : Dealings listing now pass makers later left) (fewer : listing.baseScale ≤ places)
    (start : pass.deltas = []) (taken : pass.taker.Listed places)
    (given : ∀ maker ∈ makers, maker.Listed places) (sides : ∀ maker ∈ makers, maker.side = side)
    (small : ∀ p, standing side p makers * tenTo places < Decimal.bound) :
    later.deltas.Exact places ∧
      ∀ p, standing side p left + later.deltas.taken p = standing side p makers := by
  induction steps with
  | refl =>
      rw [start]
      exact ⟨fun _ member => (nomatch member), fun p => add_zero _⟩
  | report _ _ ih => exact ih
  | @deal middle last others maker filled price amount money steps terms settled ih =>
      obtain ⟨exact, sums⟩ := ih
      obtain ⟨taker, records, -⟩ := dealings_keep (listed_keeps fewer) steps taken given
      have offered := records maker (Multiset.mem_cons_self _ _)
      have rest : ∀ record ∈ others, record.Listed places := fun record member =>
        records record (Multiset.mem_cons_of_mem member)
      obtain ⟨gave, -, -, -, deltas⟩ := settle_eq_ok settled
      have same := Order.terms_fill gave
      split_ifs at deltas with limit
      · have quantity := offered.of_limit limit
        have grid := terms.grid fewer taker.counted offered.counted
        have within := quantity.within terms.within_maker
        obtain ⟨-, left, -⟩ := quantity.fill terms.maker_open grid terms.nonneg within gave
        have side_eq := sides_of_dealings steps sides maker (Multiset.mem_cons_self _ _)
        have before (p : ℚ) : maker.offers side p =
            if maker.price.value = p then maker.left else 0 := by
          simp [Order.offers, limit, side_eq]
        have after (p : ℚ) : filled.offers side p =
            if maker.price.value = p then maker.left - amount.value else 0 := by
          simp [Order.offers, Order.kind_of_terms same, Order.side_of_terms same,
            Order.price_of_terms same, limit, side_eq, left]
        -- what was taken at the price together with this deal stood there
        obtain ⟨exact', sums'⟩ := exact.add grid terms.nonneg (by
          refine Decimal.scaled_lt ?_ (small maker.price.value)
          rw [← sums, standing_cons, before, if_pos rfl]
          linarith [standing_nonneg side maker.price.value rest]) deltas
        refine ⟨exact', fun p => ?_⟩
        rw [← sums p, sums' p, standing_cons, standing_cons, before, after]
        split_ifs <;> ring
      · -- a market order was never shown, so nothing is taken off
        obtain unchanged : middle.deltas = last.deltas := Except.ok.inj deltas
        rw [← unchanged]
        refine ⟨exact, fun p => ?_⟩
        have none (record : Order) (kind : record.kind = maker.kind) :
            record.offers side p = 0 := by
          rw [Order.offers, if_neg]
          rintro ⟨own, -⟩
          exact limit (kind.symm.trans own)
        rw [← sums p, standing_cons, standing_cons, none maker rfl,
          none filled (Order.kind_of_terms same)]

end Deals

end Pass

namespace DepthView

theorem Mirrors.removeMany {places : Nat} {side : Side} {dropped : List Decimal}
    {total total' : ℚ → ℚ} {view later : DepthView} {changed : Bool} {deltas : DepthDeltas}
    (mirrors : Mirrors places side dropped total view) (exact : deltas.Exact places)
    (fewer : ∀ p, total' p + deltas.taken p = total p) (nonneg : ∀ p, 0 ≤ total' p)
    (small : ∀ p, total p * tenTo places < Decimal.bound)
    (removed : view.removeMany deltas = .ok (changed, later)) :
    Mirrors places side dropped total' later := by
  induction deltas generalizing view total changed with
  | nil =>
      cases removed
      obtain rfl : total = total' := funext fun p => (fewer p).symm.trans (add_zero _)
      exact mirrors
  | cons entry rest ih =>
      obtain ⟨price, amount⟩ := entry
      obtain ⟨first, others⟩ := List.forall_mem_cons.mp exact
      have tail : DepthDeltas.Exact places rest := others
      simp only [DepthView.removeMany, bind_eq_ok, return_eq_ok] at removed
      obtain ⟨⟨once, middle⟩, taken, ⟨again, last⟩, further, same⟩ := removed
      cases same
      have between (p : ℚ) : total p - (if p = price.value then amount.value else 0) =
          total' p + DepthDeltas.taken p rest := by
        rw [← fewer p, DepthDeltas.taken_cons]
        simp only [eq_comm (a := p)]
        ring
      have left := mirrors.removeAt first.1 first.2 (by
        rw [← fewer, DepthDeltas.taken_cons, if_pos rfl]
        linarith [nonneg price.value, tail.taken_nonneg price.value])
        (small price.value) (fun p => (between p).symm) taken
      refine ih left tail (fun _ => rfl) ?_ further
      intro p
      refine Decimal.scaled_lt ?_ (small p)
      rw [← between]
      split_ifs
      · exact sub_le_self _ first.2
      · exact (sub_zero _).le

end DepthView

end SpotExchange
