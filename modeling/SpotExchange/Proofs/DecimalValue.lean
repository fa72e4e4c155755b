import Mathlib
import SpotExchange.Decimal.Arithmetic

/-!
What decimals stand for: rational numbers. Order and equivalence are those of
the values. Sums and differences of multiples of one power of ten are exact as
long as the result is in range, however many places the operands are written
with.
-/

namespace SpotExchange.Decimal

/-- The number a decimal stands for. -/
def value (a : Decimal) : ℚ := a.coefficient / tenTo a.scale

/-- The decimal with these parts, or zero if they are out of range. -/
def ofParts (coefficient : Int) (scale : Nat) : Decimal := (ofParts? coefficient scale).getD 0

theorem ofParts_eq {coefficient : Int} {scale : Nat} (small : coefficient.natAbs < bound)
    (few : scale ≤ 28) : ofParts coefficient scale = ⟨coefficient, scale, small, few⟩ := by
  simp [ofParts, ofParts?, small, few]

theorem value_ofParts {coefficient : Int} {scale : Nat}
    (small : coefficient.natAbs < 79228162514264337593543950336) (few : scale ≤ 28) :
    (ofParts coefficient scale).value = coefficient / tenTo scale := by
  rw [ofParts_eq small few, value]

theorem tenTo_pos_rat (n : Nat) : (0 : ℚ) < tenTo n := by exact_mod_cast tenTo_pos n

theorem tenTo_ne_zero_rat (n : Nat) : (tenTo n : ℚ) ≠ 0 := (tenTo_pos_rat n).ne'

theorem tenTo_split {m n : Nat} (fewer : m ≤ n) : tenTo n = tenTo m * tenTo (n - m) := by
  rw [← tenTo_add, Nat.add_sub_cancel' fewer]

theorem scaled_lt {x y limit : ℚ} {places : Nat} (less : x ≤ y)
    (small : y * tenTo places < limit) : x * tenTo places < limit :=
  (mul_le_mul_of_nonneg_right less (tenTo_pos_rat places).le).trans_lt small

theorem crossed_value (a b : Decimal) :
    (crossed a b : ℚ) = a.value * (tenTo a.scale * tenTo b.scale) := by
  have positive := tenTo_ne_zero_rat a.scale
  simp only [crossed, value]
  push_cast
  field_simp

theorem le_iff_value (a b : Decimal) : a ≤ b ↔ a.value ≤ b.value := by
  have positive := mul_pos (tenTo_pos_rat a.scale) (tenTo_pos_rat b.scale)
  change crossed a b ≤ crossed b a ↔ _
  rw [← Int.cast_le (R := ℚ), crossed_value, crossed_value, mul_comm (tenTo b.scale : ℚ)]
  exact mul_le_mul_iff_of_pos_right positive

theorem lt_iff_value (a b : Decimal) : a < b ↔ a.value < b.value := by
  have positive := mul_pos (tenTo_pos_rat a.scale) (tenTo_pos_rat b.scale)
  change crossed a b < crossed b a ↔ _
  rw [← Int.cast_lt (R := ℚ), crossed_value, crossed_value, mul_comm (tenTo b.scale : ℚ)]
  exact mul_lt_mul_iff_of_pos_right positive

theorem equiv_iff_value (a b : Decimal) : a ≈ b ↔ a.value = b.value := by
  have nonzero := (mul_pos (tenTo_pos_rat a.scale) (tenTo_pos_rat b.scale)).ne'
  change crossed a b = crossed b a ↔ _
  rw [← Int.cast_inj (α := ℚ), crossed_value, crossed_value, mul_comm (tenTo b.scale : ℚ)]
  exact mul_left_inj' nonzero

theorem equiv_rfl {a : Decimal} : a ≈ a := (equiv_iff_value a a).mpr rfl

theorem equiv_symm {a b : Decimal} (same : a ≈ b) : b ≈ a :=
  (equiv_iff_value b a).mpr ((equiv_iff_value a b).mp same).symm

@[simp] theorem value_zero : (0 : Decimal).value = 0 := by
  change ((0 : Int) : ℚ) / _ = 0
  simp

theorem pos_iff {a : Decimal} : 0 < a ↔ 0 < a.value := by
  rw [lt_iff_value, value_zero]

theorem nonneg_iff {a : Decimal} : 0 ≤ a ↔ 0 ≤ a.value := by
  rw [le_iff_value, value_zero]

theorem nonpos_iff {a : Decimal} : a ≤ 0 ↔ a.value ≤ 0 := by
  rw [le_iff_value, value_zero]

theorem not_nonpos_iff {a : Decimal} : ¬ a ≤ 0 ↔ 0 < a.value := by
  rw [nonpos_iff, not_le]

theorem value_of_coefficient_zero {a : Decimal} (zero : a.coefficient = 0) : a.value = 0 := by
  simp [value, zero]

@[simp] theorem value_negate (a : Decimal) : a.negate.value = -a.value := by
  simp [value, negate, neg_div]

@[simp] theorem value_min (a b : Decimal) : (a.min b).value = Min.min a.value b.value := by
  unfold Decimal.min
  split
  · rename_i less
    exact (min_eq_right ((lt_iff_value b a).mp less).le).symm
  · rename_i less
    exact (min_eq_left (not_lt.mp (mt (lt_iff_value b a).mpr less))).symm

theorem min_eq_or (a b : Decimal) : a.min b = a ∨ a.min b = b := by
  unfold Decimal.min
  split <;> simp

@[simp] theorem value_max (a b : Decimal) : (a.max b).value = Max.max a.value b.value := by
  unfold Decimal.max
  split
  · rename_i less
    exact (max_eq_right ((lt_iff_value a b).mp less).le).symm
  · rename_i less
    exact (max_eq_left (not_lt.mp (mt (lt_iff_value a b).mpr less))).symm

/-- Whether a decimal is a multiple of `10 ^ -places`. -/
def OnGrid (places : Nat) (a : Decimal) : Prop :=
  (tenTo a.scale : Int) ∣ a.coefficient * tenTo places

instance (places : Nat) (a : Decimal) : Decidable (a.OnGrid places) :=
  inferInstanceAs (Decidable ((tenTo a.scale : Int) ∣ a.coefficient * tenTo places))

theorem onGrid_iff (places : Nat) (a : Decimal) :
    a.OnGrid places ↔ ∃ units : Int, a.value * tenTo places = units := by
  have nonzero := tenTo_ne_zero_rat a.scale
  constructor
  · rintro ⟨units, same⟩
    refine ⟨units, ?_⟩
    have cast : (a.coefficient : ℚ) * tenTo places = tenTo a.scale * units := by exact_mod_cast same
    rw [value, div_mul_eq_mul_div, cast, mul_div_cancel_left₀ _ nonzero]
  · rintro ⟨units, same⟩
    refine ⟨units, ?_⟩
    rw [value, div_mul_eq_mul_div, div_eq_iff nonzero, mul_comm (units : ℚ)] at same
    exact_mod_cast same

theorem onGrid_of_value_zero {places : Nat} {a : Decimal} (zero : a.value = 0) : a.OnGrid places :=
  (onGrid_iff places a).mpr ⟨0, by rw [zero]; simp⟩

theorem onGrid_of_scale_le {places : Nat} {a : Decimal} (fewer : a.scale ≤ places) :
    a.OnGrid places := by
  refine ⟨a.coefficient * tenTo (places - a.scale), ?_⟩
  rw [tenTo_split fewer]
  push_cast
  ring

theorem onGrid_of_value {places : Nat} {a b : Decimal} (same : a.value = b.value)
    (grid : b.OnGrid places) : a.OnGrid places := by
  rw [onGrid_iff] at grid ⊢
  rwa [same]

theorem scale_truncate_le (a : Decimal) (places : Nat) : (a.truncate places).scale ≤ places := by
  unfold truncate
  split
  · assumption
  · exact Nat.le_refl _

section Rounding

theorem roundHalfEven_mul (n d : Nat) (positive : 0 < d) : roundHalfEven (n * d) d = n := by
  have noHalf : ¬ (d < 2 * (n * d % d) ∨ (2 * (n * d % d) = d ∧ n * d / d % 2 = 1)) := by
    rw [Nat.mul_mod_left]
    omega
  rw [roundHalfEven, if_neg noHalf, Nat.mul_div_cancel _ positive]

theorem roundQuotient_mul (n : Int) (d : Nat) (positive : 0 < d) : roundQuotient (n * d) d = n := by
  have sign : (n * (d : Int)).sign = n.sign := by
    rw [Int.sign_mul, Int.sign_natCast_of_ne_zero positive.ne', mul_one]
  rw [roundQuotient, sign, Int.natAbs_mul, Int.natAbs_natCast, roundHalfEven_mul _ _ positive]
  exact Int.sign_mul_natAbs n

theorem ofParts?_of_lt {coefficient : Int} {scale : Nat} (small : coefficient.natAbs < bound)
    (few : scale ≤ 28) : ∃ a, ofParts? coefficient scale = some a ∧
      a.coefficient = coefficient ∧ a.scale = scale := by
  exact ⟨⟨coefficient, scale, small, few⟩, dif_pos ⟨small, few⟩, rfl, rfl⟩

/-- A quotient that is a number of `10 ^ -places` in range is found exactly, be
it with more places than needed. -/
theorem nearest_exact (dividend units : Int) (divisor : Nat) (positive : 0 < divisor)
    {places most : Nat} (within : places ≤ most) (most_le : most ≤ 28)
    (exact : dividend * tenTo places = units * divisor)
    (small : units.natAbs < bound) :
    ∃ a, nearest dividend divisor most = some a ∧ a.value = dividend / divisor := by
  have divisor_ne : (divisor : ℚ) ≠ 0 := by exact_mod_cast positive.ne'
  -- once there are enough places, nothing is rounded
  have found (count : Nat) (enough : places ≤ count) (a : Decimal)
      (parts : ofParts? (roundQuotient (dividend * tenTo count) divisor) count = some a) :
      a.value = dividend / divisor := by
    have scaled : dividend * tenTo count = units * tenTo (count - places) * divisor := by
      rw [tenTo_split enough]
      push_cast
      rw [← mul_assoc, exact]
      ring
    rw [scaled, roundQuotient_mul _ _ positive] at parts
    simp only [ofParts?, Option.dite_none_right_eq_some, Option.some.injEq] at parts
    obtain ⟨_, rfl⟩ := parts
    simp only [value]
    rw [div_eq_div_iff (tenTo_ne_zero_rat count) divisor_ne]
    exact_mod_cast scaled.symm
  induction most with
  | zero =>
      obtain rfl := Nat.le_zero.mp within
      have whole : dividend = units * divisor := by simpa [tenTo] using exact
      obtain ⟨a, parts, -, -⟩ : ∃ a, ofParts? units 0 = some a ∧ a.coefficient = units ∧
          a.scale = 0 := ofParts?_of_lt small (by decide)
      have here : nearest dividend divisor 0 = some a := by
        rw [nearest, whole, roundQuotient_mul _ _ positive, parts]
      refine ⟨a, here, found 0 (Nat.le_refl 0) a ?_⟩
      simpa [tenTo, nearest] using here
  | succ most ih =>
      rw [nearest]
      cases parts : ofParts? (roundQuotient (dividend * tenTo (most + 1)) divisor) (most + 1) with
      | some a => exact ⟨a, rfl, found (most + 1) within a parts⟩
      | none =>
          rcases Nat.lt_or_ge places (most + 1) with fewer | same
          · exact ih (Nat.le_of_lt_succ fewer) (by omega)
          · obtain rfl : places = most + 1 := by omega
            rw [exact, roundQuotient_mul _ _ positive, ofParts?, dif_pos ⟨small, most_le⟩] at parts
            cases parts

theorem fit_exact (coefficient : Int) {scale places : Nat} (scale_le : scale ≤ 28)
    (units : Int) (grid : (coefficient : ℚ) / tenTo scale * tenTo places = units)
    (small : units.natAbs < bound) :
    ∃ a, fit coefficient scale = some a ∧ a.value = coefficient / tenTo scale := by
  have nonzero := tenTo_ne_zero_rat scale
  have exact : coefficient * tenTo places = units * tenTo scale := by
    rw [div_mul_eq_mul_div, div_eq_iff nonzero] at grid
    exact_mod_cast grid
  rw [fit, if_pos scale_le]
  rcases Nat.le_total places scale with fewer | more
  · exact nearest_exact coefficient units _ (tenTo_pos scale) fewer scale_le exact small
  · -- the result has all its places, and no more units than on the finer grid
    have coarser : coefficient * tenTo (places - scale) = units := by
      rw [tenTo_split more] at exact
      push_cast at exact
      rw [mul_comm (tenTo scale : Int), ← mul_assoc] at exact
      exact mul_right_cancel₀ (by exact_mod_cast (tenTo_pos scale).ne') exact
    have smaller : coefficient.natAbs < bound := by
      refine Nat.lt_of_le_of_lt ?_ small
      rw [← coarser, Int.natAbs_mul, Int.natAbs_natCast]
      exact Nat.le_mul_of_pos_right _ (tenTo_pos _)
    exact nearest_exact coefficient coefficient _ (tenTo_pos scale) (Nat.le_refl scale) scale_le rfl
      smaller

end Rounding

section ExactSums

variable {places : Nat} {a b : Decimal}

theorem natAbs_lt_of_abs_lt {units : Int} {amount : ℚ} (same : amount * tenTo places = units)
    (small : |amount| * tenTo places < bound) : units.natAbs < bound := by
  rw [← abs_of_pos (tenTo_pos_rat places), ← abs_mul, same, ← Int.cast_abs,
    Int.abs_eq_natAbs] at small
  exact_mod_cast small

theorem value_at_scale {scale : Nat} (fewer : a.scale ≤ scale) :
    ((a.coefficient * tenTo (scale - a.scale) : Int) : ℚ) / tenTo scale = a.value := by
  have left := tenTo_ne_zero_rat a.scale
  have right := tenTo_ne_zero_rat (scale - a.scale)
  rw [value, tenTo_split fewer]
  push_cast
  field_simp

theorem wider_scale (a b : Decimal) :
    a.scale ≤ (if a.scale ≤ b.scale then b.scale else a.scale) ∧
      b.scale ≤ (if a.scale ≤ b.scale then b.scale else a.scale) ∧
      (if a.scale ≤ b.scale then b.scale else a.scale) ≤ 28 := by
  have left := a.scale_le
  have right := b.scale_le
  split <;> omega

/-- Adding a whole multiple of `b` to `a` at a common scale is exact. -/
theorem fit_combination {scale : Nat} (fewerA : a.scale ≤ scale) (fewerB : b.scale ≤ scale)
    (scale_le : scale ≤ 28) (left : a.OnGrid places) (right : b.OnGrid places) (times : Int)
    (small : |a.value + times * b.value| * tenTo places < bound) :
    ∃ sum, fit (a.coefficient * tenTo (scale - a.scale) +
        times * (b.coefficient * tenTo (scale - b.scale))) scale = some sum ∧
      sum.value = a.value + times * b.value := by
  obtain ⟨unitsA, gridA⟩ := (onGrid_iff places a).mp left
  obtain ⟨unitsB, gridB⟩ := (onGrid_iff places b).mp right
  have at_scale : ((a.coefficient * tenTo (scale - a.scale) +
      times * (b.coefficient * tenTo (scale - b.scale)) : Int) : ℚ) / tenTo scale =
        a.value + times * b.value := by
    rw [← value_at_scale fewerA, ← value_at_scale fewerB]
    push_cast
    ring
  have grid : (a.value + times * b.value) * tenTo places = (unitsA + times * unitsB : Int) := by
    push_cast
    rw [add_mul, mul_assoc, gridA, gridB]
  obtain ⟨sum, fitted, same⟩ := fit_exact _ scale_le _ (by rw [at_scale, grid])
    (natAbs_lt_of_abs_lt grid small)
  exact ⟨sum, fitted, same.trans at_scale⟩

theorem add_exact (left : a.OnGrid places) (right : b.OnGrid places)
    (small : |a.value + b.value| * tenTo places < bound) :
    ∃ sum, a.add b = .ok sum ∧ sum.value = a.value + b.value := by
  by_cases zeroA : a.coefficient = 0
  · exact ⟨b, if_pos zeroA, by rw [value_of_coefficient_zero zeroA, zero_add]⟩
  by_cases zeroB : b.coefficient = 0
  · exact ⟨a, by rw [add, if_neg zeroA, if_pos zeroB],
      by rw [value_of_coefficient_zero zeroB, add_zero]⟩
  obtain ⟨fewerA, fewerB, scale_le⟩ := wider_scale a b
  obtain ⟨sum, fitted, same⟩ := fit_combination fewerA fewerB scale_le left right 1
    (by simpa using small)
  refine ⟨sum, ?_, by simpa using same⟩
  rw [one_mul] at fitted
  simp only [add, if_neg zeroA, if_neg zeroB, fitted, orOverflow]

theorem sub_exact (left : a.OnGrid places) (right : b.OnGrid places)
    (small : |a.value - b.value| * tenTo places < bound) :
    ∃ difference, a.sub b = .ok difference ∧ difference.value = a.value - b.value := by
  by_cases zeroA : a.coefficient = 0
  · exact ⟨b.negate, if_pos zeroA,
      by rw [value_of_coefficient_zero zeroA, value_negate, zero_sub]⟩
  by_cases zeroB : b.coefficient = 0
  · exact ⟨a, by rw [sub, if_neg zeroA, if_pos zeroB],
      by rw [value_of_coefficient_zero zeroB, sub_zero]⟩
  obtain ⟨fewerA, fewerB, scale_le⟩ := wider_scale a b
  obtain ⟨difference, fitted, same⟩ := fit_combination fewerA fewerB scale_le left right (-1)
    (by simpa [← sub_eq_add_neg] using small)
  refine ⟨difference, ?_, by simpa [← sub_eq_add_neg] using same⟩
  rw [neg_one_mul, ← sub_eq_add_neg] at fitted
  simp only [sub, if_neg zeroA, if_neg zeroB, fitted, orOverflow]

end ExactSums

theorem onGrid_of_value_add {places : Nat} {a b c : Decimal} (left : a.OnGrid places)
    (right : b.OnGrid places) (same : c.value = a.value + b.value) : c.OnGrid places := by
  obtain ⟨unitsA, gridA⟩ := (onGrid_iff places a).mp left
  obtain ⟨unitsB, gridB⟩ := (onGrid_iff places b).mp right
  exact (onGrid_iff places c).mpr
    ⟨unitsA + unitsB, by push_cast; rw [same, add_mul, gridA, gridB]⟩

theorem onGrid_of_value_sub {places : Nat} {a b c : Decimal} (left : a.OnGrid places)
    (right : b.OnGrid places) (same : c.value = a.value - b.value) : c.OnGrid places := by
  obtain ⟨unitsA, gridA⟩ := (onGrid_iff places a).mp left
  obtain ⟨unitsB, gridB⟩ := (onGrid_iff places b).mp right
  exact (onGrid_iff places c).mpr
    ⟨unitsA - unitsB, by push_cast; rw [same, sub_mul, gridA, gridB]⟩

end SpotExchange.Decimal
