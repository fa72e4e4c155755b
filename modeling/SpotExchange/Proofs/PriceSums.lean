import SpotExchange.Proofs.DecimalValue
import SpotExchange.Proofs.OrderFill
import SpotExchange.Market.Pass

/-!
Quantities that are added up for each price, as a pass does with what its makers give. A
quantity joins the entry of its price, or gets one of its own between those of lower and of
higher prices.
-/

namespace SpotExchange.DepthDeltas

def prices (deltas : DepthDeltas) : List ℚ := deltas.map fun entry => entry.1.value

@[simp] theorem prices_nil : prices [] = [] := rfl

@[simp] theorem prices_cons (entry : Decimal × Decimal) (deltas : DepthDeltas) :
    prices (entry :: deltas) = entry.1.value :: prices deltas := rfl

@[simp] theorem prices_append (deltas later : DepthDeltas) :
    prices (deltas ++ later) = prices deltas ++ prices later := List.map_append

section Add
variable {price amount : Decimal} {deltas later : DepthDeltas} {p : ℚ}

/-- Where a quantity goes that is added. -/
theorem add_cases (added : DepthDeltas.add price amount deltas = .ok later) :
    (∃ before known held after sum, deltas = before ++ (known, held) :: after ∧
      known.value = price.value ∧ held.add amount = .ok sum ∧
      later = before ++ (known, sum) :: after) ∨
    ∃ before after, deltas = before ++ after ∧
      (∀ entry ∈ before, entry.1.value < price.value) ∧
      (∀ entry ∈ after.head?, price.value < entry.1.value) ∧
      later = before ++ (price, amount) :: after := by
  induction deltas generalizing later with
  | nil =>
      cases added
      exact Or.inr ⟨[], [], rfl, nofun, nofun, rfl⟩
  | cons entry rest ih =>
      obtain ⟨known, held⟩ := entry
      rw [DepthDeltas.add] at added
      split_ifs at added with same ahead
      · obtain ⟨sum, total, ended⟩ := (bind_eq_ok _ _ _).mp added
        cases ended
        exact Or.inl
          ⟨[], known, held, rest, sum, rfl, (Decimal.equiv_iff_value _ _).mp same, total, rfl⟩
      · cases added
        exact Or.inr ⟨[], _, rfl, nofun, by simpa [Decimal.lt_iff_value] using ahead, rfl⟩
      · obtain ⟨deeper, below, ended⟩ := (bind_eq_ok _ _ _).mp added
        cases ended
        rw [Decimal.equiv_iff_value] at same
        rw [Decimal.lt_iff_value, not_lt] at ahead
        rcases ih below with ⟨before, at_price, amount', after, sum, rfl, here, total, rfl⟩ |
          ⟨before, after, rfl, lower, higher, rfl⟩
        · exact Or.inl
            ⟨(known, held) :: before, at_price, amount', after, sum, rfl, here, total, rfl⟩
        · exact Or.inr ⟨(known, held) :: before, after, rfl,
            List.forall_mem_cons.mpr ⟨lt_of_le_of_ne ahead same, lower⟩, higher, rfl⟩

theorem exists_add
    (adds : ∀ entry ∈ deltas, entry.1 ≈ price → ∃ sum, entry.2.add amount = .ok sum) :
    ∃ later, DepthDeltas.add price amount deltas = .ok later := by
  induction deltas with
  | nil => exact ⟨_, rfl⟩
  | cons entry rest ih =>
      obtain ⟨known, before⟩ := entry
      obtain ⟨first, others⟩ := List.forall_mem_cons.mp adds
      rw [DepthDeltas.add]
      split_ifs with same
      · obtain ⟨sum, added⟩ := first same
        exact ⟨_, by rw [added]; rfl⟩
      · exact ⟨_, rfl⟩
      · obtain ⟨deeper, below⟩ := ih others
        exact ⟨_, by rw [below]; rfl⟩

theorem mem_prices_add (added : DepthDeltas.add price amount deltas = .ok later) :
    p ∈ prices later ↔ p = price.value ∨ p ∈ prices deltas := by
  rcases add_cases added with ⟨before, known, held, after, sum, rfl, same, -, rfl⟩ |
    ⟨before, after, rfl, -, -, rfl⟩
  · simpa [same] using fun here => Or.inr (Or.inl here)
  · simp [or_left_comm]

theorem rising_add (rising : (prices deltas).Pairwise (· < ·))
    (added : DepthDeltas.add price amount deltas = .ok later) :
    (prices later).Pairwise (· < ·) := by
  rcases add_cases added with ⟨before, known, held, after, sum, rfl, -, -, rfl⟩ |
    ⟨before, after, rfl, lower, higher, rfl⟩
  · simpa using rising
  · rw [prices_append, List.pairwise_append] at rising
    obtain ⟨first, last, apart⟩ := rising
    have behind : ∀ q ∈ prices after, price.value < q := by
      cases after with
      | nil => exact nofun
      | cons entry rest =>
          have next := higher entry rfl
          exact List.forall_mem_cons.mpr
            ⟨next, fun q inside => next.trans ((List.pairwise_cons.mp last).1 q inside)⟩
    have ahead : ∀ q ∈ prices before, q < price.value := List.forall_mem_map.mpr lower
    rw [prices_append, prices_cons, List.pairwise_append]
    exact ⟨first, List.pairwise_cons.mpr ⟨behind, last⟩,
      fun q front => List.forall_mem_cons.mpr ⟨ahead q front, apart q front⟩⟩

end Add

end SpotExchange.DepthDeltas
