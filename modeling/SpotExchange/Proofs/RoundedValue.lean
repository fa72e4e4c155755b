import SpotExchange.Proofs.DecimalRange

/-!
Results as functions of values. Rounding reads nothing of a quotient but the ratio, and
places that are not needed make no difference. So the value of a sum, a difference, a
product or a quotient is the exact one, rounded, however many places the operands are
written with; and an operation overflows for all ways to write its operands or for none.
-/

namespace SpotExchange.Decimal

section Ratio

theorem roundHalfEven_scale (n d : Nat) {k : Nat} (positive : 0 < k) :
    roundHalfEven (n * k) (d * k) = roundHalfEven n d := by
  have twice : 2 * (n * k % (d * k)) = 2 * (n % d) * k := by
    rw [Nat.mul_mod_mul_right, mul_assoc]
  rw [roundHalfEven, roundHalfEven, twice, Nat.mul_div_mul_right _ _ positive]
  simp only [Nat.mul_lt_mul_right positive, Nat.mul_left_inj positive.ne']

theorem roundQuotient_scale (v : Int) (d : Nat) {k : Nat} (positive : 0 < k) :
    roundQuotient (v * k) (d * k) = roundQuotient v d := by
  rw [roundQuotient, roundQuotient, Int.sign_mul, Int.sign_natCast_of_ne_zero positive.ne', mul_one,
    Int.natAbs_mul, Int.natAbs_natCast, roundHalfEven_scale _ _ positive]

theorem nearest_scale (v : Int) (d : Nat) {k : Nat} (positive : 0 < k) (most : Nat) :
    nearest (v * k) (d * k) most = nearest v d most := by
  induction most with
  | zero => rw [nearest, nearest, roundQuotient_scale _ _ positive]
  | succ most ih =>
      rw [nearest, nearest, ih, mul_right_comm, roundQuotient_scale _ _ positive]

/-- Rounding reads nothing but the ratio. -/
theorem nearest_congr {v v' : Int} {d d' : Nat} (positive : 0 < d) (positive' : 0 < d')
    (same : (v : ℚ) / d = v' / d') (most : Nat) : nearest v d most = nearest v' d' most := by
  have crossed : v * d' = v' * d := by
    rw [div_eq_div_iff (by exact_mod_cast positive.ne') (by exact_mod_cast positive'.ne')] at same
    exact_mod_cast same
  rw [← nearest_scale v d positive', ← nearest_scale v' d' positive, crossed, Nat.mul_comm]

end Ratio

theorem nearest_more {v units : Int} {d places most : Nat} (positive : 0 < d)
    (few : places ≤ most) (most_le : most ≤ 28) (grid : (v : ℚ) / d * tenTo places = units) :
    (nearest v d most).map value = (nearest v d places).map value := by
  induction most, few using Nat.le_induction with
  | base => rfl
  | succ most few ih =>
      cases parts : ofParts? (roundQuotient (v * tenTo (most + 1)) d) (most + 1) with
      | none =>
          rw [nearest, parts]
          exact ih (by omega)
      | some a =>
          have found : nearest v d (most + 1) = some a := by
            rw [nearest, parts]
            rfl
          have whole : (v : ℚ) / d * tenTo a.scale = (units * tenTo (most + 1 - places) : Int) := by
            rw [(ofParts?_eq_some parts).2, tenTo_split (show places ≤ most + 1 by omega)]
            push_cast
            rw [← mul_assoc, grid]
          have same := nearest_of_grid positive most_le found whole
          -- what fits with these places fits with fewer
          have coefficient : a.coefficient = units * tenTo (most + 1 - places) := by
            rw [← same, value_mul_scale] at whole
            exact_mod_cast whole
          have small : units.natAbs < bound := by
            refine Nat.lt_of_le_of_lt ?_ a.coefficient_lt
            rw [coefficient, Int.natAbs_mul, Int.natAbs_natCast]
            exact Nat.le_mul_of_pos_right _ (tenTo_pos _)
          have exact : v * tenTo places = units * d := by
            rw [div_mul_eq_mul_div, div_eq_iff (by exact_mod_cast positive.ne')] at grid
            exact_mod_cast grid
          obtain ⟨b, shorter, value⟩ :=
            nearest_exact v units d positive le_rfl (by omega) exact small
          rw [found, shorter, Option.map_some, Option.map_some, same, value]

/-- A number rounded to 28 places, or to the most below that fit. -/
def rounded (cause : Overflow) (x : ℚ) : Except Overflow ℚ :=
  (orOverflow cause (nearest x.num x.den 28)).map value

section Rounded
variable {cause : Overflow} {v : Int} {d : Nat} {x : ℚ}

theorem map_orOverflow (found : Option Decimal) : (orOverflow cause found).map value =
    (found.map value).elim (.error cause) .ok := by
  cases found <;> rfl

theorem map_nearest (positive : 0 < d) (same : (v : ℚ) / d = x) :
    (orOverflow cause (nearest v d 28)).map value = rounded cause x := by
  subst same
  rw [rounded, nearest_congr positive (Rat.pos _) (Rat.num_div_den _).symm]

theorem map_fit {scale : Nat} (same : (v : ℚ) / tenTo scale = x) :
    (orOverflow cause (fit v scale)).map value = rounded cause x := by
  rw [← map_nearest (tenTo_pos scale) same, fit]
  split_ifs with few
  · have grid : (v : ℚ) / tenTo scale * tenTo scale = v := div_mul_cancel₀ _ (tenTo_ne_zero_rat _)
    rw [map_orOverflow, map_orOverflow, nearest_more (tenTo_pos scale) few le_rfl grid]
  · rfl

theorem rounded_value (a : Decimal) : rounded cause a.value = .ok a.value := by
  obtain ⟨found, near, same⟩ := nearest_exact a.coefficient a.coefficient (tenTo a.scale)
    (tenTo_pos _) a.scale_le le_rfl rfl a.coefficient_lt
  rw [← map_nearest (tenTo_pos a.scale) (value.eq_1 a).symm, near]
  exact congrArg Except.ok same

theorem rounded_tiny (tiny : |x| * tenTo 28 < 1 / 2) : rounded cause x = .ok 0 := by
  have error := roundQuotient_error (x.num * tenTo 28) x.den x.pos
  have scaled : ((x.num * tenTo 28 : Int) : ℚ) / x.den = x * tenTo 28 := by
    push_cast
    rw [mul_div_right_comm, Rat.num_div_den]
  have none : roundQuotient (x.num * tenTo 28) x.den = 0 := by
    rw [scaled] at error
    rw [← abs_of_pos (tenTo_pos_rat 28), ← abs_mul] at tiny
    have small : |(roundQuotient (x.num * tenTo 28) x.den : ℚ)| < 1 := by
      have triangle := abs_sub_abs_le_abs_sub
        (roundQuotient (x.num * tenTo 28) x.den : ℚ) (x * tenTo 28)
      linarith
    exact Int.abs_lt_one_iff.mp (by exact_mod_cast small)
  rw [rounded, nearest, none]
  simp [ofParts?, orOverflow, bound, Except.map, value]

theorem exists_of_map {result : Except Overflow Decimal} (same : result.map value = .ok x) :
    ∃ a, result = .ok a ∧ a.value = x := by
  cases result with
  | error _ => cases same
  | ok a => exact ⟨a, rfl, Except.ok.inj same⟩

end Rounded

section Operations
variable {a b : Decimal}

theorem map_add (a b : Decimal) : (a.add b).map value = rounded .addition (a.value + b.value) := by
  by_cases zeroA : a.coefficient = 0
  · rw [add, if_pos zeroA, value_of_coefficient_zero zeroA, zero_add, rounded_value]
    rfl
  by_cases zeroB : b.coefficient = 0
  · rw [add, if_neg zeroA, if_pos zeroB, value_of_coefficient_zero zeroB, add_zero, rounded_value]
    rfl
  obtain ⟨fewerA, fewerB, -⟩ := wider_scale a b
  simp only [add, if_neg zeroA, if_neg zeroB]
  apply map_fit
  rw [Int.cast_add, add_div, value_at_scale fewerA, value_at_scale fewerB]

theorem map_sub (a b : Decimal) :
    (a.sub b).map value = rounded .subtraction (a.value - b.value) := by
  by_cases zeroA : a.coefficient = 0
  · rw [sub, if_pos zeroA, value_of_coefficient_zero zeroA, zero_sub, ← value_negate, rounded_value]
    rfl
  by_cases zeroB : b.coefficient = 0
  · rw [sub, if_neg zeroA, if_pos zeroB, value_of_coefficient_zero zeroB, sub_zero, rounded_value]
    rfl
  obtain ⟨fewerA, fewerB, -⟩ := wider_scale a b
  simp only [sub, if_neg zeroA, if_neg zeroB]
  apply map_fit
  rw [Int.cast_sub, sub_div, value_at_scale fewerA, value_at_scale fewerB]

theorem value_of_sub {c d : Decimal} (subtracted : a.sub b = .ok c)
    (exact : d.value = a.value - b.value) : c.value = d.value := by
  have rounds := map_sub a b
  rw [subtracted, ← exact, rounded_value] at rounds
  exact Except.ok.inj rounds

theorem product_tiny (tiny : a.coefficient.natAbs < 4294967296 ∧
    b.coefficient.natAbs < 4294967296 ∧ 47 < a.scale + b.scale) :
    |a.value * b.value| * tenTo 28 < 1 / 2 := by
  obtain ⟨smallA, smallB, places⟩ := tiny
  have product : a.coefficient.natAbs * b.coefficient.natAbs ≤ 4294967296 * 4294967296 :=
    Nat.mul_le_mul smallA.le smallB.le
  have lower : tenTo 48 ≤ tenTo (a.scale + b.scale) := Nat.pow_le_pow_right (by decide) places
  have apart : 4294967296 * 4294967296 * (tenTo 28 * 2) < tenTo 48 := by decide +kernel
  have less : a.coefficient.natAbs * b.coefficient.natAbs * (tenTo 28 * 2) <
      tenTo (a.scale + b.scale) :=
    ((Nat.mul_le_mul_right _ product).trans_lt apart).trans_le lower
  rw [← product_value, abs_div, abs_of_pos (tenTo_pos_rat _), ← Int.cast_abs, Int.abs_eq_natAbs,
    Int.natAbs_mul, div_mul_eq_mul_div, div_lt_div_iff₀ (tenTo_pos_rat _) two_pos, one_mul,
    mul_assoc]
  exact_mod_cast less

theorem map_mul (a b : Decimal) :
    (a.mul b).map value = rounded .multiplication (a.value * b.value) := by
  unfold mul
  split_ifs with zero tiny
  · have none : a.value * b.value = (0 : Decimal).value := by
      rcases zero with zero | zero <;> simp [value_of_coefficient_zero zero]
    rw [none, rounded_value]
    rfl
  · rw [rounded_tiny (product_tiny tiny), ← value_zero]
    rfl
  · exact map_fit (product_value a b)

theorem map_div (a : Decimal) (nonzero : b.value ≠ 0) :
    (a.div b).map value = rounded .division (a.value / b.value) := by
  by_cases zero : a.coefficient = 0
  · rw [div, if_pos zero, value_of_coefficient_zero zero, zero_div, ← value_zero, rounded_value]
    rfl
  have positive : 0 < b.coefficient.natAbs * tenTo a.scale :=
    Nat.mul_pos (Int.natAbs_pos.mpr (coefficient_ne_zero nonzero)) (tenTo_pos _)
  rw [← map_nearest positive (quotient_value a nonzero)]
  cases found : nearest (a.coefficient * b.coefficient.sign * tenTo b.scale)
      (b.coefficient.natAbs * tenTo a.scale) 28 with
  | none => simp only [div, if_neg zero, found, orOverflow, bind, Except.bind]
  | some quotient =>
      obtain ⟨c, divided⟩ : ∃ c, a.div b = .ok c := by
        simp only [div, if_neg zero, found, orOverflow, bind, Except.bind]
        split <;> exact ⟨_, rfl⟩
      rw [divided]
      exact congrArg Except.ok (value_of_div nonzero zero found divided)

end Operations

section Signs
variable {cause : Overflow} {x y : ℚ} {a b : Decimal}

theorem exists_rounded (small : |x| + 1 / 2 < bound) : ∃ y, rounded cause x = .ok y := by
  rw [← Rat.num_div_den x] at small
  obtain ⟨a, found⟩ := exists_nearest x.pos le_rfl small
  exact ⟨a.value, by rw [rounded, found]; rfl⟩

theorem rounded_pos_iff {units : Int} (grid : x * tenTo 28 = units)
    (result : rounded cause x = .ok y) : 0 < y ↔ 0 < x := by
  rw [rounded, map_orOverflow] at result
  cases found : nearest x.num x.den 28 with
  | none =>
      rw [found] at result
      cases result
  | some a =>
      rw [found] at result
      cases result
      obtain ⟨error, -⟩ := nearest_error x.pos le_rfl found
      rw [Rat.num_div_den] at error
      constructor
      · intro positive
        by_contra negative
        have other : |-a.value - -x| * tenTo a.scale ≤ 1 / 2 := by
          rwa [neg_sub_neg, abs_sub_comm]
        have mirrored : -a.value * tenTo a.scale = (-a.coefficient : Int) := by
          rw [neg_mul, value_mul_scale, Int.cast_neg]
        obtain ⟨below, -⟩ := rounded_bounds mirrored other (by linarith)
        linarith
      · intro positive
        have whole : 0 < x * tenTo 28 := mul_pos positive (tenTo_pos_rat 28)
        rw [grid] at whole
        have unit : (1 : ℚ) ≤ units := by
          have some : 0 < units := by exact_mod_cast whole
          exact_mod_cast some
        rw [← grid, ← Rat.num_div_den x] at unit
        exact nearest_pos x.pos le_rfl found unit

theorem abs_value_lt (a : Decimal) : |a.value| + 1 / 2 < bound := by
  have size : |a.value| ≤ |(a.coefficient : ℚ)| := by
    rw [value, abs_div, abs_of_pos (tenTo_pos_rat a.scale)]
    apply div_le_self (abs_nonneg _)
    exact_mod_cast tenTo_pos a.scale
  have small : |(a.coefficient : ℚ)| + 1 ≤ bound := by
    rw [← Int.cast_abs, Int.abs_eq_natAbs]
    exact_mod_cast a.coefficient_lt
  linarith

theorem exists_sub (left : 0 ≤ a.value) (right : 0 ≤ b.value) :
    ∃ c, a.sub b = .ok c ∧ (0 < c.value ↔ b.value < a.value) := by
  have size : |a.value - b.value| + 1 / 2 < bound := by
    have most := abs_sub_le_of_nonneg_of_le left (le_max_left _ _) right (le_max_right _ _)
    rcases le_total a.value b.value with less | less
    · rw [max_eq_right less] at most
      have small := abs_value_lt b
      rw [abs_of_nonneg right] at small
      linarith
    · rw [max_eq_left less] at most
      have small := abs_value_lt a
      rw [abs_of_nonneg left] at small
      linarith
  obtain ⟨unitsA, gridA⟩ := (onGrid_iff 28 a).mp (onGrid_of_scale_le a.scale_le)
  obtain ⟨unitsB, gridB⟩ := (onGrid_iff 28 b).mp (onGrid_of_scale_le b.scale_le)
  have grid : (a.value - b.value) * tenTo 28 = (unitsA - unitsB : Int) := by
    rw [sub_mul, gridA, gridB, Int.cast_sub]
  obtain ⟨y, result⟩ : ∃ y, rounded .subtraction (a.value - b.value) = .ok y :=
    exists_rounded size
  obtain ⟨c, subtracted, rfl⟩ := exists_of_map ((map_sub a b).trans result)
  exact ⟨c, subtracted, (rounded_pos_iff grid result).trans sub_pos⟩

end Signs

end SpotExchange.Decimal
