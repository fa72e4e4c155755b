import SpotExchange.Proofs.DecimalRounding
import SpotExchange.Market.ProRata

/-!
Operations that stay in range. An operation has a result as soon as the exact one is in
range, with half a unit to spare for the rounding; and rounding never makes more than
twice as much of a result that is not negative.
-/

namespace SpotExchange

namespace Decimal

section Rounded
variable {a b c : Decimal}

/-- What is rounded to some places keeps its sign and is at most doubled: below half a
unit of the last place nothing is left. -/
theorem rounded_bounds {x y : ℚ} {places : Nat} {units : Int} (grid : y * tenTo places = units)
    (error : |y - x| * tenTo places ≤ 1 / 2) (nonneg : 0 ≤ x) : 0 ≤ y ∧ y ≤ 2 * x := by
  have scale := tenTo_pos_rat places
  obtain ⟨lower, upper⟩ := abs_le.mp (scaled_error error)
  rw [grid] at lower upper
  have scaled : 0 ≤ x * tenTo places := mul_nonneg nonneg scale.le
  have whole : 0 ≤ units := by
    by_contra negative
    have below : units ≤ -1 := by omega
    have below' : (units : ℚ) ≤ -1 := by exact_mod_cast below
    linarith
  have doubled : (units : ℚ) ≤ 2 * (x * tenTo places) := by
    rcases whole.eq_or_lt with none | some
    · rw [← none]
      simpa using scaled
    · have unit : (1 : ℚ) ≤ units := by exact_mod_cast some
      linarith
  rw [← grid] at doubled
  constructor
  · rw [← mul_nonneg_iff_of_pos_right scale, grid]
    exact_mod_cast whole
  · rw [← mul_le_mul_iff_of_pos_right scale]
    linarith

theorem mul_bounds (left : 0 ≤ a.value) (right : 0 ≤ b.value) (multiplied : a.mul b = .ok c) :
    0 ≤ c.value ∧ c.value ≤ 2 * (a.value * b.value) := by
  have exact_nonneg := mul_nonneg left right
  have zero : (0 : Decimal).value ≤ 2 * (a.value * b.value) := by
    rw [value_zero]
    linarith
  unfold mul at multiplied
  split_ifs at multiplied
  · cases multiplied
    exact ⟨value_zero.ge, zero⟩
  · cases multiplied
    exact ⟨value_zero.ge, zero⟩
  · cases found : fit (a.coefficient * b.coefficient) (a.scale + b.scale) with
    | none =>
        rw [found] at multiplied
        cases multiplied
    | some product =>
        rw [found] at multiplied
        cases multiplied
        obtain ⟨error, -⟩ := nearest_error (tenTo_pos _) (by split_ifs <;> omega) found
        rw [product_value] at error
        exact rounded_bounds (value_mul_scale _) error exact_nonneg

theorem exists_mul (small : |a.value * b.value| + 1 / 2 < bound) : ∃ c, a.mul b = .ok c := by
  unfold mul
  split_ifs
  · exact ⟨0, rfl⟩
  · exact ⟨0, rfl⟩
  · rw [← product_value] at small
    obtain ⟨product, found⟩ := exists_nearest (tenTo_pos (a.scale + b.scale))
      (show (if a.scale + b.scale ≤ 28 then a.scale + b.scale else 28) ≤ 28 by
        split_ifs <;> omega) small
    exact ⟨product, congrArg (orOverflow .multiplication) found⟩

theorem div_bounds (left : 0 ≤ a.value) (right : 0 < b.value) (divided : a.div b = .ok c) :
    0 ≤ c.value ∧ c.value ≤ 2 * (a.value / b.value) := by
  obtain ⟨_, -, ⟨_, grid⟩, error, -⟩ := div_error right.ne' divided
  exact rounded_bounds grid error (div_nonneg left right.le)

end Rounded

section Sums
variable {a b : Decimal}

/-- The difference of two numbers in range is exact, whichever is the larger. -/
theorem sub_small {places : Nat} (left : a.OnGrid places) (right : b.OnGrid places)
    (nonneg : 0 ≤ a.value) (nonneg' : 0 ≤ b.value) (small : a.value * tenTo places < bound)
    (small' : b.value * tenTo places < bound) :
    ∃ c, a.sub b = .ok c ∧ c.value = a.value - b.value := by
  apply sub_exact left right
  rcases le_total b.value a.value with fewer | more
  · rw [abs_of_nonneg (sub_nonneg.mpr fewer)]
    exact scaled_lt (sub_le_self _ nonneg') small
  · rw [abs_of_nonpos (sub_nonpos.mpr more), neg_sub]
    exact scaled_lt (sub_le_self _ nonneg) small'

theorem add_near (left : a.OnGrid 8) (right : b.OnGrid 8) (nonneg : 0 ≤ a.value)
    (nonneg' : 0 ≤ b.value) (small : (a.value + b.value) * 10 ^ 7 + 1 / 2 < bound) :
    ∃ c, a.add b = .ok c ∧ c.OnGrid 8 ∧ 0 ≤ c.value ∧
      c.value ≤ a.value + b.value + 5 / 10 ^ 8 := by
  by_cases zeroA : a.coefficient = 0
  · refine ⟨b, if_pos zeroA, right, nonneg', ?_⟩
    rw [value_of_coefficient_zero zeroA]
    norm_num
  by_cases zeroB : b.coefficient = 0
  · refine ⟨a, by rw [add, if_neg zeroA, if_pos zeroB], left, nonneg, ?_⟩
    rw [value_of_coefficient_zero zeroB]
    norm_num
  obtain ⟨fewerA, fewerB, scale_le⟩ := wider_scale a b
  simp only [add, if_neg zeroA, if_neg zeroB]
  generalize (if a.scale ≤ b.scale then b.scale else a.scale) = scale at fewerA fewerB scale_le
  have total : ((a.coefficient * tenTo (scale - a.scale) +
      b.coefficient * tenTo (scale - b.scale) : Int) : ℚ) / tenTo scale = a.value + b.value := by
    rw [← value_at_scale fewerA, ← value_at_scale fewerB]
    push_cast
    ring
  generalize a.coefficient * tenTo (scale - a.scale) + b.coefficient * tenTo (scale - b.scale) =
    units at total ⊢
  have sum_nonneg : 0 ≤ a.value + b.value := add_nonneg nonneg nonneg'
  have whole : |a.value + b.value| + 1 / 2 < bound := by
    rw [abs_of_nonneg sum_nonneg]
    linarith
  obtain ⟨sum, found⟩ := exists_nearest (tenTo_pos scale) scale_le (total ▸ whole)
  obtain ⟨error, last⟩ := nearest_error (tenTo_pos scale) scale_le found
  rw [total] at error last
  have bounds := rounded_bounds (value_mul_scale sum) error sum_nonneg
  have exact (far : sum.scale = scale ∨ 8 ≤ sum.scale) : sum.value = a.value + b.value := by
    rw [← total]
    rcases far with same | more
    · have grid : (units : ℚ) / tenTo scale * tenTo sum.scale = units := by
        rw [same, div_mul_cancel₀ _ (tenTo_ne_zero_rat scale)]
      exact nearest_of_grid (tenTo_pos scale) scale_le found grid
    · obtain ⟨unitsA, gridA⟩ := (onGrid_iff sum.scale a).mp (onGrid_mono more left)
      obtain ⟨unitsB, gridB⟩ := (onGrid_iff sum.scale b).mp (onGrid_mono more right)
      have grid : (a.value + b.value) * tenTo sum.scale = (unitsA + unitsB : Int) := by
        rw [add_mul, gridA, gridB, Int.cast_add]
      rw [← total] at grid
      exact nearest_of_grid (tenTo_pos scale) scale_le found grid
  refine ⟨sum, by simp only [fit, if_pos scale_le, found, orOverflow], ?_⟩
  by_cases far : sum.scale = scale ∨ 8 ≤ sum.scale
  · have same := exact far
    exact ⟨onGrid_of_value_add left right same, bounds.1, by rw [same]; norm_num⟩
  · -- the sum was cut short, to seven places and not fewer
    rw [not_or, not_le] at far
    have beyond := last.resolve_left far.1
    have places : 7 ≤ sum.scale := by
      by_contra fewer
      have shorter := mul_le_mul_of_nonneg_left
        (tenTo_le (show sum.scale + 1 ≤ 7 by omega)) sum_nonneg
      rw [abs_of_nonneg sum_nonneg] at beyond
      rw [tenTo_cast 7] at shorter
      linarith
    have finer := mul_le_mul_of_nonneg_left (tenTo_le places)
      (abs_nonneg (sum.value - (a.value + b.value)))
    rw [tenTo_cast 7] at finer
    have upper := le_abs_self (sum.value - (a.value + b.value))
    exact ⟨onGrid_of_scale_le far.2.le, bounds.1, by norm_num at finer ⊢; linarith⟩

theorem sum_exact {places : Nat} {values : List Decimal} (grid : ∀ a ∈ values, a.OnGrid places)
    (nonneg : ∀ a ∈ values, 0 ≤ a.value)
    (small : (values.map value).sum * tenTo places < bound) :
    ∃ total, sum values = .ok total ∧ total.value = (values.map value).sum ∧
      total.OnGrid places := by
  have from_start (start : Decimal) (start_grid : start.OnGrid places)
      (start_nonneg : 0 ≤ start.value)
      (fits : (start.value + (values.map value).sum) * tenTo places < bound) :
      ∃ total, values.foldlM add start = .ok total ∧
        total.value = start.value + (values.map value).sum ∧ total.OnGrid places := by
    clear small
    induction values generalizing start with
    | nil => exact ⟨start, rfl, by simp, start_grid⟩
    | cons first rest ih =>
        obtain ⟨first_grid, rest_grid⟩ := List.forall_mem_cons.mp grid
        obtain ⟨first_nonneg, rest_nonneg⟩ := List.forall_mem_cons.mp nonneg
        have later : 0 ≤ (rest.map value).sum := List.sum_nonneg fun amount member => by
          obtain ⟨a, inside, rfl⟩ := List.mem_map.mp member
          exact rest_nonneg a inside
        rw [List.map_cons, List.sum_cons] at fits
        obtain ⟨next, added, next_value⟩ := add_exact start_grid first_grid (by
          rw [abs_of_nonneg (add_nonneg start_nonneg first_nonneg)]
          exact scaled_lt (by linarith) fits)
        obtain ⟨total, summed, total_value, total_grid⟩ := ih rest_grid rest_nonneg next
          (onGrid_of_value_add start_grid first_grid next_value)
          (by rw [next_value]; exact add_nonneg start_nonneg first_nonneg)
          (by rw [next_value, add_assoc]; exact fits)
        refine ⟨total, ?_, ?_, total_grid⟩
        · rw [List.foldlM_cons, added]
          exact summed
        · rw [total_value, next_value, List.map_cons, List.sum_cons, add_assoc]
  obtain ⟨total, summed, same, total_grid⟩ :=
    from_start 0 (onGrid_of_scale_le (Nat.zero_le _)) value_zero.ge (by rwa [value_zero, zero_add])
  exact ⟨total, summed, by rw [same, value_zero, zero_add], total_grid⟩

end Sums

end Decimal

/-- A share of an amount can be computed whenever twice the amount is in range: where the
product leaves the range the quotient is formed first, and that is at most one. -/
theorem exists_proRata {amount part total : Decimal} (amount_nonneg : 0 ≤ amount.value)
    (part_nonneg : 0 ≤ part.value) (positive : 0 < total.value) (within : part.value ≤ total.value)
    (small : 2 * amount.value + 1 / 2 < Decimal.bound) :
    ∃ share, proRata amount part total = .ok share := by
  have ratio_nonneg := div_nonneg part_nonneg positive.le
  have ratio : part.value / total.value ≤ 1 := (div_le_one positive).mpr within
  have most := mul_le_mul_of_nonneg_left ratio amount_nonneg
  unfold proRata
  cases first : (do (← amount.mul part).div total : Except Overflow Decimal) with
  | ok share => exact ⟨share, rfl⟩
  | error cause =>
      -- had the product been in range, then so would have been its quotient
      have beyond : ∀ product, amount.mul part ≠ .ok product := by
        intro product multiplied
        obtain ⟨nonneg, double⟩ := Decimal.mul_bounds amount_nonneg part_nonneg multiplied
        have quotient : product.value / total.value ≤ 2 * amount.value := by
          rw [div_le_iff₀ positive]
          rw [mul_div_assoc', div_le_iff₀ positive] at most
          linarith
        obtain ⟨share, divided⟩ := Decimal.exists_div positive.ne' (show
          |product.value / total.value| + 1 / 2 < Decimal.bound by
            rw [abs_of_nonneg (div_nonneg nonneg positive.le)]
            linarith)
        rw [multiplied] at first
        exact nomatch first.symm.trans divided
      obtain ⟨quotient, divided⟩ := Decimal.exists_div positive.ne' (show
        |part.value / total.value| + 1 / 2 < Decimal.bound by
          rw [abs_of_nonneg ratio_nonneg]
          norm_num [Decimal.bound]
          linarith)
      obtain ⟨nonneg, double⟩ := Decimal.div_bounds part_nonneg positive divided
      have product : |amount.value * quotient.value| + 1 / 2 < Decimal.bound := by
        rw [abs_of_nonneg (mul_nonneg amount_nonneg nonneg)]
        have twice : quotient.value ≤ 2 := double.trans (by linarith)
        have limit := mul_le_mul_of_nonneg_left twice amount_nonneg
        linarith
      obtain ⟨share, multiplied⟩ := Decimal.exists_mul product
      refine ⟨share, ?_⟩
      rw [divided]
      exact multiplied

end SpotExchange
