import SpotExchange.Proofs.CoveredMatching
import SpotExchange.Proofs.DepthRows

/-!
Depth views that stay in range. When each row has room for one more quantity, an order can
be added to the view or taken off it, and so can all that a pass took.
-/

namespace SpotExchange

namespace DepthView

/-- Rows with exact amounts that have room for one more quantity. -/
def Roomy (more : ℚ) (rows : List DepthRow) : Prop :=
  ∀ row ∈ rows, row.amount.OnGrid 8 ∧ 0 ≤ row.amount.value ∧
    (row.amount.value + more) * tenTo 8 < Decimal.bound

section Roomy
variable {more less : ℚ} {price amount : Decimal} {rows : List DepthRow}

theorem Roomy.mono (roomy : Roomy more rows) (fewer : less ≤ more) : Roomy less rows := by
  intro row member
  obtain ⟨grid, nonneg, small⟩ := roomy row member
  exact ⟨grid, nonneg, Decimal.scaled_lt (by linarith) small⟩

theorem Roomy.exists_removeRow (price : Decimal) (roomy : Roomy 0 rows) (grid : amount.OnGrid 8)
    (nonneg : 0 ≤ amount.value) (small : amount.value * tenTo 8 < Decimal.bound) :
    ∃ result, removeRow price amount rows = .ok result ∧
      ∀ later, result = some later → Roomy 0 later := by
  induction rows with
  | nil => exact ⟨none, rfl, nofun⟩
  | cons row rest ih =>
      obtain ⟨first, others⟩ := List.forall_mem_cons.mp roomy
      rw [removeRow]
      by_cases same : row.price ≈ price
      · obtain ⟨row_grid, row_nonneg, row_small⟩ := first
        rw [add_zero] at row_small
        obtain ⟨left, subtracted, value⟩ :=
          Decimal.sub_small row_grid grid row_nonneg nonneg row_small small
        rw [if_pos same, subtracted]
        refine ⟨_, rfl, ?_⟩
        rintro later ⟨⟩
        split_ifs with none
        · exact others
        · rw [Decimal.not_nonpos_iff] at none
          refine List.forall_mem_cons.mpr ⟨⟨?_, none.le, ?_⟩, others⟩
          · exact Decimal.onGrid_of_value_sub row_grid grid value
          · exact Decimal.scaled_lt (by rw [value]; linarith) row_small
      · obtain ⟨result, removed, kept⟩ := ih others
        rw [if_neg same, removed]
        refine ⟨_, rfl, ?_⟩
        intro later found
        obtain ⟨left, some, rfl⟩ := Option.map_eq_some_iff.mp found
        exact List.forall_mem_cons.mpr ⟨first, kept left some⟩

theorem Roomy.exists_insertRow (side : Side) (price : Decimal) (room : Nat)
    (roomy : Roomy amount.value rows) (grid : amount.OnGrid 8) (nonneg : 0 ≤ amount.value) :
    ∃ result, insertRow side price amount room rows = .ok result := by
  apply DepthView.exists_insertRow
  intro row member _
  obtain ⟨row_grid, row_nonneg, small⟩ := roomy row member
  obtain ⟨sum, added, -⟩ := Decimal.add_exact row_grid grid (by
    rwa [abs_of_nonneg (add_nonneg row_nonneg nonneg)])
  exact ⟨sum, added⟩

variable {view : DepthView}

theorem Roomy.exists_removeAt (price : Decimal) (roomy : Roomy 0 view.rows) (grid : amount.OnGrid 8)
    (nonneg : 0 ≤ amount.value) (small : amount.value * tenTo 8 < Decimal.bound) :
    ∃ changed later, view.removeAt price amount = .ok (changed, later) ∧ Roomy 0 later.rows := by
  obtain ⟨result, removed, kept⟩ := roomy.exists_removeRow price grid nonneg small
  rw [removeAt, removed]
  cases result with
  | none => exact ⟨false, view, rfl, roomy⟩
  | some rows => exact ⟨true, { view with rows }, rfl, kept rows rfl⟩

theorem Roomy.exists_removeMany {most : ℚ} {deltas : DepthDeltas} (roomy : Roomy 0 view.rows)
    (within : deltas.Within most) (small : most * tenTo 8 < Decimal.bound) :
    ∃ changed later, view.removeMany deltas = .ok (changed, later) := by
  induction deltas generalizing view with
  | nil => exact ⟨false, view, rfl⟩
  | cons entry rest ih =>
      obtain ⟨⟨grid, nonneg, least⟩, others⟩ := List.forall_mem_cons.mp within
      obtain ⟨first, middle, removed, kept⟩ :=
        roomy.exists_removeAt entry.1 grid nonneg (Decimal.scaled_lt least small)
      obtain ⟨second, last, further⟩ := ih kept others
      refine ⟨first || second, last, ?_⟩
      simp only [removeMany, removed, further, bind, Except.bind]
      rfl

theorem Roomy.exists_insert {order : Order} (roomy : Roomy order.amount.value view.rows)
    (exact : order.Exact 8) : ∃ changed later, view.insert order = .ok (changed, later) := by
  unfold DepthView.insert
  split_ifs
  · obtain ⟨remaining, left, value, grid⟩ := exact.remaining
    simp only [left, bind, Except.bind]
    split_ifs
    · exact ⟨false, view, rfl⟩
    · have room := roomy.mono (value.trans_le exact.left_le)
      obtain ⟨result, inserted⟩ := room.exists_insertRow view.side order.price view.maxDepth grid
        (value ▸ exact.left_nonneg)
      rw [inserted]
      cases result with
      | none => exact ⟨false, view, rfl⟩
      | some rows => exact ⟨true, { view with rows }, rfl⟩
  · exact ⟨false, view, rfl⟩

theorem Roomy.exists_remove {order : Order} {remaining : Decimal} (roomy : Roomy 0 view.rows)
    (exact : order.kind = .limit → order.Exact 8) (rest : order.remaining = .ok remaining) :
    ∃ changed later, view.remove order remaining = .ok (changed, later) := by
  unfold DepthView.remove
  split_ifs with covers
  · rw [DepthView.covers, Bool.and_eq_true, decide_eq_true_eq] at covers
    have exact := exact covers.1
    obtain ⟨left, same, value, grid⟩ := exact.remaining
    obtain rfl : left = remaining := Except.ok.inj (same.symm.trans rest)
    obtain ⟨changed, later, removed, -⟩ := roomy.exists_removeAt order.price grid
      (value ▸ exact.left_nonneg) (Decimal.scaled_lt (value.trans_le exact.left_le) exact.small)
    exact ⟨changed, later, removed⟩
  · exact ⟨false, view, rfl⟩

end Roomy

end DepthView

end SpotExchange
