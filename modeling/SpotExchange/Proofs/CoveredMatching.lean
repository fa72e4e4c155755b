import SpotExchange.Proofs.CoveredOrders
import SpotExchange.Proofs.PriceSums

/-!
Matching that stays in range. One volume covers the taker and the makers of a pass, and
beside what they still have to sell it covers what was taken at each price. Every deal
keeps this, so every meeting, every walk and every allotment has a result.
-/

namespace SpotExchange

namespace DepthDeltas

def Within (most : ℚ) (deltas : DepthDeltas) : Prop :=
  ∀ entry ∈ deltas, entry.2.OnGrid 8 ∧ 0 ≤ entry.2.value ∧ entry.2.value ≤ most

section Within
variable {most more : ℚ} {price amount : Decimal} {deltas : DepthDeltas}

theorem Within.mono (within : deltas.Within most) (higher : most ≤ more) :
    deltas.Within more := by
  intro entry member
  obtain ⟨grid, nonneg, least⟩ := within entry member
  exact ⟨grid, nonneg, least.trans higher⟩

theorem Within.exists_add (within : deltas.Within most) (most_nonneg : 0 ≤ most)
    (grid : amount.OnGrid 8) (nonneg : 0 ≤ amount.value)
    (small : (most + amount.value) * tenTo 8 < Decimal.bound) :
    ∃ later, DepthDeltas.add price amount deltas = .ok later ∧
      later.Within (most + amount.value) := by
  have wider := within.mono (le_add_of_nonneg_right nonneg : most ≤ most + amount.value)
  have total {held : Decimal} (own : held.OnGrid 8 ∧ 0 ≤ held.value ∧ held.value ≤ most) :
      ∃ sum, held.add amount = .ok sum ∧ sum.value = held.value + amount.value := by
    apply Decimal.add_exact own.1 grid
    rw [abs_of_nonneg (add_nonneg own.2.1 nonneg)]
    exact Decimal.scaled_lt (add_le_add_left own.2.2 amount.value) small
  obtain ⟨later, added⟩ : ∃ later, DepthDeltas.add price amount deltas = .ok later := by
    apply DepthDeltas.exists_add
    intro entry member _
    obtain ⟨sum, added, -⟩ := total (within entry member)
    exact ⟨sum, added⟩
  refine ⟨later, added, ?_⟩
  rcases add_cases added with ⟨before, known, held, after, sum, rfl, -, grown, rfl⟩ |
    ⟨before, after, rfl, -, -, rfl⟩
  · obtain ⟨first, rest⟩ := List.forall_mem_append.mp wider
    have own := within (known, held) (List.mem_append_right before List.mem_cons_self)
    obtain ⟨exact_sum, equal, value⟩ := total own
    obtain rfl : exact_sum = sum := Except.ok.inj (equal.symm.trans grown)
    refine List.forall_mem_append.mpr
      ⟨first, List.forall_mem_cons.mpr ⟨?_, (List.forall_mem_cons.mp rest).2⟩⟩
    rw [value]
    exact ⟨Decimal.onGrid_of_value_add own.1 grid value, add_nonneg own.2.1 nonneg,
      add_le_add_left own.2.2 amount.value⟩
  · obtain ⟨first, last⟩ := List.forall_mem_append.mp wider
    exact List.forall_mem_append.mpr ⟨first, List.forall_mem_cons.mpr
      ⟨⟨grid, nonneg, le_add_of_nonneg_left most_nonneg⟩, last⟩⟩

end Within

end DepthDeltas

namespace Pass

/-- A pass that a volume covers: its taker, the makers, and orders that stand aside. -/
structure Ledger (volume peak : ℚ) (aside : Multiset Order) (pass : Pass)
    (makers : Multiset Order) : Prop where
  covering : Covering volume peak (pass.taker ::ₘ (makers + aside))
  sides : ∀ maker ∈ makers, maker.side = pass.taker.side.opposite
  taken : pass.deltas.Within (volume - totalSupply (pass.taker ::ₘ (makers + aside)))

section Ledger
variable {volume peak : ℚ} {aside makers gone others left : Multiset Order} {pass later : Pass}
  {listing : Listing} {now : Instant} {maker : Order} {price amount money : Decimal}

theorem Ledger.drop (ledger : Ledger volume peak aside pass (makers + gone))
    (peak_nonneg : 0 ≤ peak) : Ledger volume peak aside pass makers := by
  have same : pass.taker ::ₘ (makers + gone + aside) =
      pass.taker ::ₘ (makers + aside) + gone := by
    rw [Multiset.cons_add, add_right_comm]
  obtain ⟨covering, sides, taken⟩ := ledger
  rw [same] at covering taken
  constructor
  · exact covering.drop peak_nonneg
  · exact fun maker member => sides maker (Multiset.mem_add.mpr (Or.inl member))
  · apply taken.mono
    have supply := totalSupply_nonneg fun order member =>
      covering order (Multiset.mem_add.mpr (Or.inr member))
    rw [totalSupply_add]
    linarith

theorem Ledger.tail (ledger : Ledger volume peak aside pass (maker ::ₘ others))
    (peak_nonneg : 0 ≤ peak) : Ledger volume peak aside pass others := by
  rw [← Multiset.singleton_add, add_comm] at ledger
  exact ledger.drop peak_nonneg

theorem Ledger.complete (ledger : Ledger volume peak aside pass makers) (done : List Order) :
    Ledger volume peak aside (pass.complete done) makers :=
  ⟨ledger.covering, ledger.sides, ledger.taken⟩

theorem Ledger.taker (ledger : Ledger volume peak aside pass makers) :
    pass.taker.Covered volume peak (totalSupply (pass.taker ::ₘ (makers + aside))) :=
  ledger.covering pass.taker (Multiset.mem_cons_self _ _)

section Deals
variable (range : InRange volume peak) (base : listing.baseScale ≤ 8)
  (quote : listing.quoteScale ≤ 8)
include range

theorem Ledger.exists_product (ledger : Ledger volume peak aside pass (maker ::ₘ others))
    (positive : 0 < price.value) (price_le : price.value ≤ peak) (nonneg : 0 ≤ amount.value)
    (needed : ∃ need, pass.taker.availableAt price listing.baseScale = .ok need ∧ amount ≤ need)
    (offered : ∃ available, maker.availableAt price listing.baseScale = .ok available ∧
      amount ≤ available) : ∃ product, amount.mul price = .ok product := by
  have covering := ledger.covering
  rw [Multiset.cons_add] at covering
  have amount_le := (covering.amount_le (ledger.sides maker (Multiset.mem_cons_self _ _)) needed
    offered).trans (covering.supply_le (Multiset.mem_cons_self _ _))
  have most := mul_le_mul amount_le price_le positive.le (nonneg.trans amount_le)
  have small := range.small
  apply Decimal.exists_mul
  rw [abs_of_nonneg (mul_nonneg nonneg positive.le)]
  rw [Decimal.tenTo_cast] at small
  norm_num [Decimal.bound] at small ⊢
  linarith

include base quote

theorem Ledger.settle (ledger : Ledger volume peak aside pass (maker ::ₘ others))
    (terms : Deal listing pass.taker maker price amount money) :
    ∃ last filled, pass.settle now maker price amount money = .ok (last, filled) ∧
      Ledger volume peak aside last (filled ::ₘ others) := by
  obtain ⟨covering, sides, taken⟩ := ledger
  rw [Multiset.cons_add] at covering taken
  have opposite := sides maker (Multiset.mem_cons_self _ _)
  have own := covering pass.taker (Multiset.mem_cons_self _ _)
  have other := covering maker (by simp)
  have grid := terms.grid base own.counted other.counted
  have supply_le := covering.supply_le (Multiset.mem_cons_self _ _)
  have amount_le := covering.amount_le opposite terms.within_taker terms.within_maker
  obtain ⟨taker', maker', took, gave, after, less⟩ :=
    covering.deal range base quote opposite terms
  -- the deltas may grow by as much as the deal takes off the supply
  obtain ⟨deltas, added, within⟩ : ∃ deltas,
      (if maker.kind = .limit then DepthDeltas.add maker.price amount pass.deltas
        else .ok pass.deltas) = .ok deltas ∧
      deltas.Within (volume - totalSupply (taker' ::ₘ maker' ::ₘ (others + aside))) := by
    rw [less, ← sub_add]
    split_ifs
    · exact taken.exists_add (sub_nonneg.mpr supply_le) grid terms.nonneg
        (range.below (by linarith))
    · exact ⟨pass.deltas, rfl, taken.mono (le_add_of_nonneg_right terms.nonneg)⟩
  have taker_terms := Order.terms_fill took
  have maker_terms := Order.terms_fill gave
  refine ⟨⟨taker', pass.trades.push (Trade.between taker' maker' price amount money now),
    pass.completed, deltas⟩, maker', ?_, ?_, ?_, ?_⟩
  · rw [← Order.kind_of_terms maker_terms, ← Order.price_of_terms maker_terms] at added
    simp only [Pass.settle, bind_eq_ok]
    refine ⟨taker', took, maker', gave, ?_⟩
    split_ifs at added ⊢
    · exact (bind_eq_ok _ _ _).mpr ⟨deltas, added, rfl⟩
    · cases added
      rfl
  · rw [Multiset.cons_add]
    exact after
  · intro record member
    rw [Order.side_of_terms taker_terms]
    rcases Multiset.mem_cons.mp member with rfl | rest
    · rw [Order.side_of_terms maker_terms]
      exact opposite
    · exact sides record (Multiset.mem_cons_of_mem rest)
  · rw [Multiset.cons_add]
    exact within

theorem Ledger.dealings (ledger : Ledger volume peak aside pass makers)
    (steps : Dealings listing now pass makers later left) :
    Ledger volume peak aside later left := by
  induction steps with
  | refl => exact ledger
  | report done _ ih => exact ih.complete done
  | deal _ terms settled ih =>
      obtain ⟨last, filled, same, after⟩ := ih.settle range base quote terms
      cases same.symm.trans settled
      exact after

theorem Ledger.cleared {walked kept : List Order}
    (ledger : Ledger volume peak aside pass (makers + (walked : Multiset Order)))
    (cleared : Cleared listing now pass walked later kept) :
    Ledger volume peak aside later (makers + (kept : Multiset Order)) := by
  obtain ⟨done, steps, -, -, -⟩ := cleared
  have after := ledger.dealings range base quote (steps.frame makers)
  rw [← add_assoc] at after
  exact after.drop range.peak_nonneg

variable (now)

/-- Two open orders of a ledger can meet. -/
theorem Ledger.exists_meet (ledger : Ledger volume peak aside pass (maker ::ₘ others))
    (live : pass.taker.isCompleted = false) (waiting : maker.isCompleted = false)
    (limited : pass.taker.kind = .limit ∨ maker.kind = .limit) :
    ∃ met after, pass.meet listing now maker = .ok (met, after) ∧
      met.taker.terms = pass.taker.terms ∧ Ledger volume peak aside met (after ::ₘ others) := by
  have own := ledger.taker
  have other := ledger.covering maker (by simp)
  obtain ⟨grid, most⟩ := dealPrice_priced own other limited
  rw [meet]
  by_cases free : dealPrice pass.taker maker ≤ 0
  · exact ⟨pass, maker, if_pos free, rfl, ledger⟩
  have positive := Decimal.not_nonpos_iff.mp free
  obtain ⟨need, needed⟩ := own.exists_availableAt live grid positive listing.baseScale
  obtain ⟨available, offered⟩ := other.exists_availableAt waiting grid positive listing.baseScale
  by_cases nothing : need.min available ≤ 0
  · refine ⟨pass, maker, ?_, rfl, ledger⟩
    simp [free, needed, offered, nothing, bind, Except.bind, pure, Except.pure]
  have some := Decimal.not_nonpos_iff.mp nothing
  obtain ⟨product, multiplied⟩ := ledger.exists_product range positive most some.le
    ⟨need, needed, by simp [Decimal.le_iff_value]⟩
    ⟨available, offered, by simp [Decimal.le_iff_value]⟩
  obtain ⟨met, after, settled, kept⟩ := ledger.settle range base quote
    (.of_meeting live waiting limited free needed offered nothing multiplied)
  refine ⟨met, after, ?_, Order.terms_fill (settle_eq_ok settled).2.1, kept⟩
  simp only [free, needed, offered, nothing, multiplied, bind, Except.bind, ↓reduceIte]
  exact settled

theorem Ledger.exists_sweepQueue {queue : OrderQueue}
    (ledger : Ledger volume peak aside pass queue) (live : pass.taker.isCompleted = false)
    (waiting : ∀ order ∈ queue, order.isCompleted = false)
    (limited : ∀ order ∈ queue, pass.taker.kind = .limit ∨ order.kind = .limit) :
    ∃ swept kept, pass.sweepQueue listing now queue = .ok (swept, kept) := by
  induction queue generalizing pass with
  | nil => exact ⟨pass, [], rfl⟩
  | cons maker rest ih =>
      obtain ⟨first, others⟩ := List.forall_mem_cons.mp waiting
      obtain ⟨first_limited, others_limited⟩ := List.forall_mem_cons.mp limited
      rw [← Multiset.cons_coe] at ledger
      obtain ⟨met, after, meeting, same, kept⟩ :=
        ledger.exists_meet now range base quote live first first_limited
      -- whether or not the maker is done, it is not met again
      have behind := kept.tail range.peak_nonneg
      rw [← Order.kind_of_terms same] at others_limited
      simp only [sweepQueue, meeting, bind, Except.bind]
      split_ifs with done stop stop
      · exact ⟨_, _, rfl⟩
      · exact ih (behind.complete [after]) (Bool.eq_false_iff.mpr stop) others others_limited
      · exact ⟨_, _, rfl⟩
      · obtain ⟨swept, left, walk⟩ :=
          ih behind (Bool.eq_false_iff.mpr stop) others others_limited
        exact ⟨swept, after :: left, by rw [walk]; rfl⟩

theorem Ledger.exists_sweepLadder (limit : Option Decimal) {symbol : String} {side : Side}
    {ladder : Ladder} (ledger : Ledger volume peak aside pass ladder.orders)
    (live : pass.taker.isCompleted = false) (formed : ladder.WellFormed symbol side) :
    ∃ swept left, pass.sweepLadder listing now limit ladder = .ok (swept, left) := by
  induction ladder generalizing pass with
  | nil => exact ⟨pass, [], rfl⟩
  | cons level rest ih =>
      rw [sweepLadder]
      by_cases within : reaches pass.taker limit level = true
      · obtain ⟨waiting, placed⟩ := formed.first
        have limited : ∀ order ∈ level.orders,
            pass.taker.kind = .limit ∨ order.kind = .limit := fun order member =>
          Or.inr (placed order member).1
        have peak_nonneg := range.peak_nonneg
        rw [Ladder.orders_cons, ← Multiset.coe_add] at ledger
        obtain ⟨met, kept, walk⟩ :=
          (ledger.drop peak_nonneg).exists_sweepQueue now range base quote live waiting limited
        obtain ⟨cleared, -⟩ := sweepQueue_cleared live waiting limited walk
        rw [add_comm] at ledger
        have behind := (ledger.cleared range base quote cleared).drop peak_nonneg
        simp only [within, walk, bind, Except.bind, ↓reduceIte]
        split_ifs with some stop
        · exact ⟨_, _, rfl⟩
        · exact ⟨_, _, rfl⟩
        · exact ih behind (Bool.eq_false_iff.mpr stop) formed.tail
      · exact ⟨pass, level :: rest, if_neg within⟩

theorem Ledger.exists_allot {total : Decimal}
    (ledger : Ledger volume peak aside pass (maker ::ₘ others))
    (live : pass.taker.isCompleted = false) (waiting : maker.isCompleted = false)
    (limit : maker.kind = .limit) (placed : maker.price ≈ price) (priced : 0 < price)
    (positive : 0 < total.value) (whole : maker.amount.value ≤ total.value) :
    ∃ given after, pass.allot listing now total price maker = .ok (given, after) ∧
      Ledger volume peak aside given (after ::ₘ others) := by
  have own := ledger.taker
  have other := ledger.covering maker (by simp)
  have same := (Decimal.equiv_iff_value _ _).mp placed
  have price_pos := Decimal.pos_iff.mp priced
  obtain ⟨limit_grid, limit_le⟩ := other.priced limit
  have grid : price.OnGrid 8 := Decimal.onGrid_of_value same.symm limit_grid
  obtain ⟨share, shared⟩ := exists_proRata own.amount_nonneg other.amount_nonneg positive whole (by
    have small := own.small
    have nonneg := own.amount_nonneg
    rw [Decimal.tenTo_cast] at small
    norm_num [Decimal.bound] at small ⊢
    linarith)
  obtain ⟨available, offered⟩ := other.exists_availableAt waiting grid price_pos listing.baseScale
  obtain ⟨need, needed⟩ := own.exists_availableAt live grid price_pos listing.baseScale
  simp only [allot, shared, offered, needed, bind, Except.bind]
  by_cases nothing : ((listing.floorBase share).min available).min need ≤ 0
  · exact ⟨pass, maker, if_pos nothing, ledger⟩
  have some := Decimal.not_nonpos_iff.mp nothing
  obtain ⟨product, multiplied⟩ := ledger.exists_product range price_pos (same ▸ limit_le)
    some.le ⟨need, needed, by simp [Decimal.le_iff_value]⟩
    ⟨available, offered, by simp [Decimal.le_iff_value]⟩
  obtain ⟨given, after, settled, kept⟩ := ledger.settle range base quote
    (.of_share live waiting limit placed priced offered needed nothing multiplied)
  refine ⟨given, after, ?_, kept⟩
  simp only [nothing, multiplied, ↓reduceIte]
  exact settled

theorem Ledger.exists_allotQueue {total : Decimal} {queue : OrderQueue}
    (ledger : Ledger volume peak aside pass queue)
    (waiting : ∀ order ∈ queue, order.isCompleted = false)
    (placed : ∀ order ∈ queue, order.kind = .limit ∧ order.price ≈ price) (priced : 0 < price)
    (positive : 0 < total.value) (whole : ∀ order ∈ queue, order.amount.value ≤ total.value) :
    ∃ given others, pass.allotQueue listing now total price queue = .ok (given, others) := by
  induction queue generalizing pass with
  | nil => exact ⟨pass, [], rfl⟩
  | cons maker rest ih =>
      rw [allotQueue]
      by_cases stop : pass.taker.isCompleted = true
      · exact ⟨pass, maker :: rest, if_pos stop⟩
      obtain ⟨first, others⟩ := List.forall_mem_cons.mp waiting
      obtain ⟨⟨limit, near⟩, others_placed⟩ := List.forall_mem_cons.mp placed
      obtain ⟨first_whole, others_whole⟩ := List.forall_mem_cons.mp whole
      rw [← Multiset.cons_coe] at ledger
      obtain ⟨met, after, allotted, kept⟩ := ledger.exists_allot now range base quote
        (Bool.eq_false_iff.mpr stop) first limit near priced positive first_whole
      obtain ⟨given, left, walk⟩ :=
        ih (kept.tail range.peak_nonneg) others others_placed others_whole
      refine ⟨given, after :: left, ?_⟩
      rw [if_neg stop, allotted]
      simp only [walk, bind, Except.bind]
      rfl

theorem Ledger.exists_allotLadder {total : Decimal} {symbol : String} {side : Side}
    {ladder : Ladder} (ledger : Ledger volume peak aside pass ladder.orders)
    (formed : ladder.WellFormed symbol side) (positive : 0 < total.value)
    (whole : ∀ order ∈ ladder.orders, order.amount.value ≤ total.value) :
    ∃ given left, pass.allotLadder listing now total ladder = .ok (given, left) := by
  induction ladder generalizing pass with
  | nil => exact ⟨pass, [], rfl⟩
  | cons level rest ih =>
      obtain ⟨waiting, placed⟩ := formed.first
      have priced := formed.price_pos level List.mem_cons_self
      have peak_nonneg := range.peak_nonneg
      rw [Ladder.orders_cons] at whole
      obtain ⟨near, far⟩ := List.forall_mem_append.mp whole
      rw [Ladder.orders_cons, ← Multiset.coe_add] at ledger
      obtain ⟨met, orders, walk⟩ := (ledger.drop peak_nonneg).exists_allotQueue now range base quote
        waiting placed priced positive near
      obtain ⟨cleared, -⟩ := allotQueue_cleared waiting placed priced walk
      rw [add_comm] at ledger
      have behind := (ledger.cleared range base quote cleared).drop peak_nonneg
      simp only [allotLadder, walk, bind, Except.bind]
      split_ifs
      · exact ⟨_, _, rfl⟩
      · obtain ⟨given, left, further⟩ := ih behind formed.tail far
        exact ⟨given, Ladder.keep level (OrderQueue.separate orders).2 left, by rw [further]; rfl⟩

theorem Ledger.exists_apportion {symbol : String} {ladder : Ladder}
    (ledger : Ledger volume peak aside pass ladder.orders)
    (formed : ladder.WellFormed symbol pass.taker.side.opposite)
    (small : (ladder.orders.map fun order => order.amount.value).sum * tenTo 8 < Decimal.bound) :
    ∃ given left, pass.apportion listing now ladder = .ok (given, left) := by
  have whole := Ladder.divide_append pass.taker.price formed.sorted
  obtain ⟨near, -⟩ := formed.divide pass.taker.side pass.taker.price
  simp only [apportion]
  generalize (ladder.divide pass.taker.side pass.taker.price).1 = crossing at near whole ⊢
  generalize (ladder.divide pass.taker.side pass.taker.price).2 = beyond at whole ⊢
  rw [← whole, Ladder.orders_append] at ledger small
  have covered : ∀ order ∈ crossing.orders ++ beyond.orders, order.Covered volume peak _ :=
    fun order member => ledger.covering order (by
      rw [Multiset.mem_cons, Multiset.mem_add]
      exact Or.inr (Or.inl member))
  obtain ⟨crossing_covered, beyond_covered⟩ := List.forall_mem_append.mp covered
  rw [List.map_append, List.sum_append] at small
  have nonneg : ∀ amount ∈ crossing.orders.map fun order => order.amount.value, 0 ≤ amount :=
    List.forall_mem_map.mpr fun order member => (crossing_covered order member).amount_nonneg
  have beyond_nonneg : 0 ≤ (beyond.orders.map fun order => order.amount.value).sum :=
    List.sum_nonneg
      (List.forall_mem_map.mpr fun order member => (beyond_covered order member).amount_nonneg)
  obtain ⟨totals, total, mapped, added, value⟩ := Ladder.exists_total
    (fun order member => (crossing_covered order member).amount_grid)
    (fun order member => (crossing_covered order member).amount_nonneg)
    (Decimal.scaled_lt (le_add_of_nonneg_right beyond_nonneg) small)
  simp only [mapped, added, bind, Except.bind]
  split_ifs with nothing
  · exact ⟨pass, ladder, rfl⟩
  rw [Decimal.not_nonpos_iff] at nothing
  rw [← Multiset.coe_add] at ledger
  obtain ⟨given, left, walk⟩ :=
    (ledger.drop range.peak_nonneg).exists_allotLadder now range base quote near nothing
      (fun order member => by
        rw [value]
        exact List.single_le_sum nonneg _ (List.mem_map_of_mem member))
  exact ⟨given, left ++ beyond, by rw [walk]; rfl⟩

end Deals

end Ledger

end Pass

end SpotExchange
