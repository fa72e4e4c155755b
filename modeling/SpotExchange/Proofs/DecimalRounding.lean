import SpotExchange.Proofs.DecimalValue

/-!
How far a rounded result is from the exact one. A quotient is off by at most half
a unit of its last place, and it has all places that fit; products of multiples of
powers of ten are exact in range. For moderate numbers the quotient, cut to a few
places, is the exact quotient cut to them: rounding never lifts it over a unit.
-/

namespace SpotExchange.Decimal

section HalfUnit

theorem roundHalfEven_error (n d : Nat) (positive : 0 < d) :
    |(roundHalfEven n d : ℚ) - n / d| ≤ 1 / 2 := by
  have divisor : (0 : ℚ) < d := by exact_mod_cast positive
  have split : (n : ℚ) / d = (n / d : Nat) + (n % d : Nat) / (d : ℚ) := by
    rw [div_eq_iff divisor.ne', add_mul, div_mul_cancel₀ _ divisor.ne']
    exact_mod_cast (Nat.div_add_mod' n d).symm
  rw [split]
  unfold roundHalfEven
  split_ifs with up
  · have most : (n % d : Nat) / (d : ℚ) ≤ 1 := by
      rw [div_le_one divisor]
      exact_mod_cast (Nat.mod_lt n positive).le
    have least : 1 / 2 ≤ (n % d : Nat) / (d : ℚ) := by
      rw [div_le_div_iff₀ two_pos divisor]
      have twice : d ≤ 2 * (n % d) := by omega
      have cast : (d : ℚ) ≤ 2 * (n % d : Nat) := by exact_mod_cast twice
      linarith
    rw [abs_le]
    push_cast
    constructor <;> linarith
  · have least : (0 : ℚ) ≤ (n % d : Nat) / (d : ℚ) := by positivity
    have most : (n % d : Nat) / (d : ℚ) ≤ 1 / 2 := by
      rw [div_le_div_iff₀ divisor two_pos]
      have twice : 2 * (n % d) ≤ d := by omega
      have cast : 2 * ((n % d : Nat) : ℚ) ≤ d := by exact_mod_cast twice
      linarith
    rw [abs_le]
    constructor <;> linarith

theorem roundQuotient_error (dividend : Int) (divisor : Nat) (positive : 0 < divisor) :
    |(roundQuotient dividend divisor : ℚ) - dividend / divisor| ≤ 1 / 2 := by
  have sizes := roundHalfEven_error dividend.natAbs divisor positive
  have parts : (dividend : ℚ) = dividend.sign * dividend.natAbs := by
    rw [← Int.cast_natCast, ← Int.cast_mul, Int.sign_mul_natAbs]
  have sign : |(dividend.sign : ℚ)| ≤ 1 := by
    rcases lt_trichotomy dividend 0 with negative | rfl | positive
    · simp [Int.sign_eq_neg_one_of_neg negative]
    · simp
    · simp [Int.sign_eq_one_of_pos positive]
  have factor : (roundQuotient dividend divisor : ℚ) - dividend / divisor =
      dividend.sign * (roundHalfEven dividend.natAbs divisor - dividend.natAbs / divisor) := by
    rw [roundQuotient, mul_sub, ← mul_div_assoc, ← parts]
    push_cast
    rfl
  rw [factor, abs_mul]
  exact (mul_le_of_le_one_left (abs_nonneg _) sign).trans sizes

theorem ofParts?_eq_some {coefficient : Int} {scale : Nat} {a : Decimal}
    (found : ofParts? coefficient scale = some a) :
    a.coefficient = coefficient ∧ a.scale = scale := by
  simp only [ofParts?, Option.dite_none_right_eq_some, Option.some.injEq] at found
  obtain ⟨-, rfl⟩ := found
  exact ⟨rfl, rfl⟩

theorem value_mul_scale (a : Decimal) : a.value * tenTo a.scale = a.coefficient :=
  div_mul_cancel₀ _ (tenTo_ne_zero_rat a.scale)

theorem scaled_error {x y : ℚ} {places : Nat} (error : |x - y| * tenTo places ≤ 1 / 2) :
    |x * tenTo places - y * tenTo places| ≤ 1 / 2 := by
  rwa [← sub_mul, abs_mul, abs_of_pos (tenTo_pos_rat places)]

theorem bound_le_of_ofParts?_none {coefficient : Int} {scale : Nat} (few : scale ≤ 28)
    (unfit : ofParts? coefficient scale = none) : (bound : ℚ) ≤ |(coefficient : ℚ)| := by
  have large : ¬ coefficient.natAbs < bound := by
    intro small
    rw [ofParts?, dif_pos ⟨small, few⟩] at unfit
    cases unfit
  rw [← Int.cast_abs, Int.abs_eq_natAbs]
  exact_mod_cast not_lt.mp large

/-- The value found is off by at most half a unit of its last place. It has all
the places asked for, unless the next place would have left the range. -/
theorem nearest_error {dividend : Int} {divisor most : Nat} {a : Decimal} (positive : 0 < divisor)
    (most_le : most ≤ 28) (found : nearest dividend divisor most = some a) :
    |a.value - dividend / divisor| * tenTo a.scale ≤ 1 / 2 ∧
      (a.scale = most ∨
        (bound : ℚ) ≤ |(dividend : ℚ) / divisor| * tenTo (a.scale + 1) + 1 / 2) := by
  have scaled (places : Nat) : ((dividend * tenTo places : Int) : ℚ) / divisor =
      dividend / divisor * tenTo places := by
    push_cast
    rw [div_mul_eq_mul_div]
  have close {places : Nat} {b : Decimal}
      (parts : ofParts? (roundQuotient (dividend * tenTo places) divisor) places = some b) :
      |b.value - dividend / divisor| * tenTo b.scale ≤ 1 / 2 := by
    obtain ⟨coefficient, scale⟩ := ofParts?_eq_some parts
    have error := roundQuotient_error (dividend * tenTo places) divisor positive
    rw [scaled, ← coefficient, ← value_mul_scale, scale, ← sub_mul, abs_mul,
      abs_of_pos (tenTo_pos_rat places)] at error
    rwa [scale]
  induction most with
  | zero =>
      have parts : ofParts? (roundQuotient (dividend * tenTo 0) divisor) 0 = some a := by
        simpa [nearest, tenTo] using found
      exact ⟨close parts, Or.inl (ofParts?_eq_some parts).2⟩
  | succ most ih =>
      rw [nearest] at found
      cases parts : ofParts? (roundQuotient (dividend * tenTo (most + 1)) divisor) (most + 1) with
      | some b =>
          rw [parts] at found
          cases found
          exact ⟨close parts, Or.inl (ofParts?_eq_some parts).2⟩
      | none =>
          rw [parts] at found
          obtain ⟨error, last⟩ := ih (by omega) found
          refine ⟨error, Or.inr ?_⟩
          rcases last with same | beyond
          · -- one place more was tried, and did not fit
            have size := bound_le_of_ofParts?_none most_le parts
            have next := roundQuotient_error (dividend * tenTo (most + 1)) divisor positive
            have triangle := abs_sub_abs_le_abs_sub
              (roundQuotient (dividend * tenTo (most + 1)) divisor : ℚ)
              (((dividend * tenTo (most + 1) : Int) : ℚ) / divisor)
            rw [scaled, abs_mul, abs_of_pos (tenTo_pos_rat (most + 1))] at triangle
            rw [scaled] at next
            rw [same]
            linarith
          · exact beyond

theorem exists_nearest {dividend : Int} {divisor most : Nat} (positive : 0 < divisor)
    (most_le : most ≤ 28) (small : |(dividend : ℚ) / divisor| + 1 / 2 < bound) :
    ∃ a, nearest dividend divisor most = some a := by
  induction most with
  | zero =>
      rw [nearest]
      cases parts : ofParts? (roundQuotient dividend divisor) 0 with
      | some a => exact ⟨a, rfl⟩
      | none =>
          have size := bound_le_of_ofParts?_none most_le parts
          have error := roundQuotient_error dividend divisor positive
          have triangle := abs_sub_abs_le_abs_sub
            (roundQuotient dividend divisor : ℚ) ((dividend : ℚ) / divisor)
          linarith
  | succ most ih =>
      obtain ⟨shorter, found⟩ := ih (by omega)
      rw [nearest, found]
      cases ofParts? (roundQuotient (dividend * tenTo (most + 1)) divisor) (most + 1) with
      | some a => exact ⟨a, rfl⟩
      | none => exact ⟨shorter, rfl⟩

theorem eq_of_grid {x y : ℚ} {m n : Int} (left : x = m) (right : y = n) (near : |x - y| < 1) :
    x = y := by
  subst left right
  have apart : |m - n| < 1 := by exact_mod_cast near
  rw [Int.abs_lt_one_iff, sub_eq_zero] at apart
  rw [apart]

theorem nearest_of_grid {dividend : Int} {divisor most : Nat} {a : Decimal} (positive : 0 < divisor)
    (most_le : most ≤ 28) (found : nearest dividend divisor most = some a) {units : Int}
    (grid : (dividend : ℚ) / divisor * tenTo a.scale = units) : a.value = dividend / divisor := by
  have scale := tenTo_pos_rat a.scale
  obtain ⟨error, -⟩ := nearest_error positive most_le found
  have near : |a.value * tenTo a.scale - dividend / divisor * tenTo a.scale| < 1 :=
    (scaled_error error).trans_lt (by norm_num)
  exact mul_right_cancel₀ scale.ne' (eq_of_grid (value_mul_scale a) grid near)

theorem nearest_pos {dividend : Int} {divisor most : Nat} {a : Decimal} (positive : 0 < divisor)
    (most_le : most ≤ 28) (found : nearest dividend divisor most = some a)
    (unit : 1 ≤ (dividend : ℚ) / divisor * tenTo most) : 0 < a.value := by
  have scale := tenTo_pos_rat a.scale
  obtain ⟨error, last⟩ := nearest_error positive most_le found
  have exact_pos : 0 < (dividend : ℚ) / divisor := by
    by_contra nothing
    have none := mul_nonpos_of_nonpos_of_nonneg (not_lt.mp nothing) (tenTo_pos_rat most).le
    linarith
  have enough : 1 / 2 < (dividend : ℚ) / divisor * tenTo a.scale := by
    rcases last with same | beyond
    · rw [same]
      linarith
    · rw [abs_of_pos exact_pos, tenTo_add] at beyond
      have ten : ((tenTo a.scale * tenTo 1 : Nat) : ℚ) = tenTo a.scale * 10 := by
        push_cast
        norm_num [tenTo]
      rw [ten, ← mul_assoc] at beyond
      norm_num [bound] at beyond
      linarith
  have lower := (abs_le.mp (scaled_error error)).1
  have above : 0 < a.value * tenTo a.scale := by linarith
  exact (mul_pos_iff_of_pos_right scale).mp above

end HalfUnit

section Cutting

theorem truncate_floor {a : Decimal} (places : Nat) (nonneg : 0 ≤ a.value) :
    (a.truncate places).value * tenTo places = ⌊a.value * tenTo places⌋ := by
  unfold truncate
  split_ifs with fewer
  · obtain ⟨units, same⟩ := (onGrid_iff places a).mp (onGrid_of_scale_le fewer)
    rw [same, Int.floor_intCast]
  · have kept := tenTo_ne_zero_rat places
    have split := tenTo_split (Nat.le_of_lt (Nat.lt_of_not_le fewer))
    have units : a.value * tenTo places = a.coefficient / (tenTo (a.scale - places) : Nat) := by
      rw [value, split]
      push_cast
      field_simp
    have whole : 0 ≤ a.coefficient := by
      have product := mul_nonneg nonneg (tenTo_pos_rat a.scale).le
      rw [value_mul_scale] at product
      exact_mod_cast product
    rw [units, Rat.floor_intCast_div_natCast, value, div_mul_cancel₀ _ kept]
    exact congrArg Int.cast (Int.tdiv_eq_ediv_of_nonneg whole)

theorem truncate_bounds {a : Decimal} (places : Nat) (nonneg : 0 ≤ a.value) :
    0 ≤ (a.truncate places).value ∧ (a.truncate places).value ≤ a.value ∧
      a.value * tenTo places < (a.truncate places).value * tenTo places + 1 := by
  have scale := tenTo_pos_rat places
  have floor := truncate_floor places nonneg
  refine ⟨?_, ?_, ?_⟩
  · rw [← mul_nonneg_iff_of_pos_right scale, floor]
    exact_mod_cast Int.floor_nonneg.mpr (mul_nonneg nonneg scale.le)
  · rw [← mul_le_mul_iff_of_pos_right scale, floor]
    exact Int.floor_le _
  · rw [floor]
    exact Int.lt_floor_add_one _

theorem value_truncate {a : Decimal} {places : Nat} (grid : a.OnGrid places) :
    (a.truncate places).value = a.value := by
  unfold truncate
  split_ifs with fewer
  · rfl
  have split := tenTo_split (Nat.le_of_lt (Nat.lt_of_not_le fewer))
  have gone : (tenTo (a.scale - places) : Int) ∣ a.coefficient := by
    unfold OnGrid at grid
    rw [split, Nat.cast_mul, mul_comm (tenTo places : Int)] at grid
    exact (mul_dvd_mul_iff_right (by exact_mod_cast (tenTo_pos places).ne')).mp grid
  obtain ⟨units, same⟩ := gone
  have nonzero : (tenTo (a.scale - places) : Int) ≠ 0 := by
    exact_mod_cast (tenTo_pos (a.scale - places)).ne'
  have kept := tenTo_ne_zero_rat places
  have cut := tenTo_ne_zero_rat (a.scale - places)
  simp only [value, same, Int.mul_tdiv_cancel_left units nonzero, split]
  push_cast
  field_simp

theorem nearest_truncate {dividend : Int} {divisor most places : Nat} {a : Decimal}
    (positive : 0 < divisor) (most_le : most ≤ 28) (found : nearest dividend divisor most = some a)
    {units : Int} (grid : (dividend : ℚ) / divisor * tenTo places = units) :
    (a.truncate places).value = a.value := by
  by_cases fewer : a.scale ≤ places
  · rw [truncate, dif_pos fewer]
  · have finer : (dividend : ℚ) / divisor * tenTo a.scale =
        (units * tenTo (a.scale - places) : Int) := by
      rw [tenTo_split (Nat.le_of_lt (Nat.lt_of_not_le fewer))]
      push_cast
      rw [← mul_assoc, grid]
    have exact := nearest_of_grid positive most_le found finer
    exact value_truncate ((onGrid_iff _ _).mpr ⟨units, by rw [exact, grid]⟩)

theorem value_dropZeros (a : Decimal) (count : Nat) : (a.dropZeros count).value = a.value := by
  unfold dropZeros
  split_ifs with zeros
  · apply value_truncate
    obtain ⟨units, same⟩ := Int.dvd_of_tmod_eq_zero zeros.2.1
    refine ⟨units, ?_⟩
    have split := tenTo_split (Nat.sub_le a.scale count)
    rw [Nat.sub_sub_self zeros.1] at split
    rw [same, split]
    push_cast
    ring
  · rfl

theorem value_dropQuotientZeros (a : Decimal) : a.dropQuotientZeros.value = a.value := by
  have all (counts : List Nat) (b : Decimal) : (counts.foldl dropZeros b).value = b.value := by
    induction counts generalizing b with
    | nil => rfl
    | cons count rest ih => rw [List.foldl_cons, ih, value_dropZeros]
  exact all _ a

end Cutting

section Quotient
variable {a b c : Decimal}

theorem coefficient_ne_zero (nonzero : b.value ≠ 0) : b.coefficient ≠ 0 :=
  fun zero => nonzero (value_of_coefficient_zero zero)

theorem quotient_value (a : Decimal) (nonzero : b.value ≠ 0) :
    ((a.coefficient * b.coefficient.sign * tenTo b.scale : Int) : ℚ) /
      (b.coefficient.natAbs * tenTo a.scale : Nat) = a.value / b.value := by
  have divisor : (b.coefficient : ℚ) ≠ 0 := by exact_mod_cast coefficient_ne_zero nonzero
  have sizes : (b.coefficient.natAbs : ℚ) = b.coefficient.sign * b.coefficient := by
    rw [← Int.cast_natCast, ← Int.cast_mul, Int.sign_mul_self_eq_natAbs]
  have sign : (b.coefficient.sign : ℚ) ≠ 0 := by
    exact_mod_cast mt Int.sign_eq_zero_iff_zero.mp (coefficient_ne_zero nonzero)
  have left := tenTo_ne_zero_rat a.scale
  have right := tenTo_ne_zero_rat b.scale
  rw [value, value]
  push_cast
  rw [sizes]
  field_simp

theorem quotient_grid {digits : Nat} (nonzero : b.value ≠ 0)
    (ends : (a.coefficient * tenTo digits).tmod b.coefficient = 0) :
    ∃ units : Int, a.value / b.value * tenTo (a.scale + digits - b.scale) = units := by
  obtain ⟨whole, same⟩ := Int.dvd_of_tmod_eq_zero ends
  have divisor : (b.coefficient : ℚ) ≠ 0 := by exact_mod_cast coefficient_ne_zero nonzero
  have left := tenTo_ne_zero_rat a.scale
  have right := tenTo_ne_zero_rat b.scale
  have more := tenTo_ne_zero_rat digits
  have cast : (a.coefficient : ℚ) * tenTo digits = b.coefficient * whole := by exact_mod_cast same
  refine ⟨whole * tenTo (a.scale + digits - b.scale + b.scale - (a.scale + digits)), ?_⟩
  have longer : a.scale + digits ≤ a.scale + digits - b.scale + b.scale := by omega
  have both := tenTo_split longer
  rw [tenTo_add, tenTo_add] at both
  have cast_both : (tenTo (a.scale + digits - b.scale) : ℚ) * tenTo b.scale = tenTo a.scale *
      tenTo digits * tenTo (a.scale + digits - b.scale + b.scale - (a.scale + digits)) := by
    exact_mod_cast both
  push_cast
  rw [value, value, div_div_div_eq, div_mul_eq_mul_div, div_eq_iff (mul_ne_zero left divisor)]
  calc (a.coefficient : ℚ) * tenTo b.scale * tenTo (a.scale + digits - b.scale)
      = a.coefficient * tenTo digits * (tenTo a.scale *
          tenTo (a.scale + digits - b.scale + b.scale - (a.scale + digits))) := by
        rw [mul_assoc, mul_comm (tenTo b.scale : ℚ), cast_both]
        ring
    _ = _ := by
        rw [cast]
        ring

theorem divisor_pos (a : Decimal) (nonzero : b.value ≠ 0) :
    0 < b.coefficient.natAbs * tenTo a.scale :=
  Nat.mul_pos (Int.natAbs_pos.mpr (coefficient_ne_zero nonzero)) (tenTo_pos _)

theorem value_of_div {quotient : Decimal} (nonzero : b.value ≠ 0) (left : a.coefficient ≠ 0)
    (found : nearest (a.coefficient * b.coefficient.sign * tenTo b.scale)
      (b.coefficient.natAbs * tenTo a.scale) 28 = some quotient)
    (divided : a.div b = .ok c) : c.value = quotient.value := by
  have whole {digits : Nat} (ends : (a.coefficient * tenTo digits).tmod b.coefficient = 0) :
      (quotient.truncate (a.scale + digits - b.scale)).value = quotient.value := by
    obtain ⟨units, grid⟩ := quotient_grid nonzero ends
    rw [← quotient_value a nonzero] at grid
    exact nearest_truncate (divisor_pos a nonzero) le_rfl found grid
  simp only [div, if_neg left, found, orOverflow, bind, Except.bind] at divided
  split at divided
  · rename_i ends
    cases divided
    have none : (a.coefficient * tenTo 0).tmod b.coefficient = 0 := by
      simpa using List.find?_some ends
    exact whole none
  · rename_i digits _ ends
    cases divided
    rw [value_dropQuotientZeros]
    exact whole (by simpa using List.find?_some ends)
  · cases divided
    exact value_dropQuotientZeros quotient

/-- A quotient is a number of units of some place, off by at most half a unit. The
place is the last one, unless the digit behind it would leave the range. -/
theorem div_error (nonzero : b.value ≠ 0) (divided : a.div b = .ok c) :
    ∃ places ≤ 28, (∃ units : Int, c.value * tenTo places = units) ∧
      |c.value - a.value / b.value| * tenTo places ≤ 1 / 2 ∧
      (places = 28 ∨ (bound : ℚ) ≤ |a.value / b.value| * tenTo (places + 1) + 1 / 2) := by
  by_cases zero : a.coefficient = 0
  · simp only [div, zero, ↓reduceIte, Except.ok.injEq] at divided
    subst divided
    refine ⟨28, le_rfl, ⟨0, by simp⟩, ?_, Or.inl rfl⟩
    norm_num [value_of_coefficient_zero zero]
  cases found : nearest (a.coefficient * b.coefficient.sign * tenTo b.scale)
      (b.coefficient.natAbs * tenTo a.scale) 28 with
  | none =>
      simp only [div, if_neg zero, found, orOverflow] at divided
      cases divided
  | some quotient =>
      obtain ⟨error, last⟩ := nearest_error (divisor_pos a nonzero) le_rfl found
      rw [quotient_value a nonzero] at error last
      rw [value_of_div nonzero zero found divided]
      exact ⟨quotient.scale, quotient.scale_le, ⟨_, value_mul_scale quotient⟩, error, last⟩

theorem exists_div (nonzero : b.value ≠ 0) (small : |a.value / b.value| + 1 / 2 < bound) :
    ∃ c, a.div b = .ok c := by
  by_cases zero : a.coefficient = 0
  · exact ⟨0, by rw [div, if_pos zero]⟩
  · rw [← quotient_value a nonzero] at small
    obtain ⟨quotient, found⟩ := exists_nearest (divisor_pos a nonzero) le_rfl small
    simp only [div, if_neg zero, found, orOverflow, bind, Except.bind]
    split <;> exact ⟨_, rfl⟩

end Quotient

section Products
variable {a b : Decimal} {m n : Nat}

theorem natAbs_eq_zero_of_tiny {units : Int}
    (tiny : a.coefficient.natAbs < 4294967296 ∧ b.coefficient.natAbs < 4294967296 ∧
      47 < a.scale + b.scale) (few : m + n ≤ 28)
    (exact : a.coefficient * b.coefficient * tenTo (m + n) = units * tenTo (a.scale + b.scale)) :
    units.natAbs = 0 := by
  obtain ⟨smallA, smallB, places⟩ := tiny
  have sizes := congrArg Int.natAbs exact
  simp only [Int.natAbs_mul, Int.natAbs_natCast] at sizes
  have product : a.coefficient.natAbs * b.coefficient.natAbs ≤ 4294967296 * 4294967296 :=
    Nat.mul_le_mul smallA.le smallB.le
  have upper : tenTo (m + n) ≤ tenTo 28 := Nat.pow_le_pow_right (by decide) few
  have lower : tenTo 48 ≤ tenTo (a.scale + b.scale) := Nat.pow_le_pow_right (by decide) places
  have most := Nat.mul_le_mul product upper
  by_contra some
  have least := Nat.mul_le_mul (Nat.one_le_iff_ne_zero.mpr some) lower
  rw [← sizes] at least
  have apart : 4294967296 * 4294967296 * tenTo 28 < 1 * tenTo 48 := by decide +kernel
  omega

theorem product_value (a b : Decimal) :
    ((a.coefficient * b.coefficient : Int) : ℚ) / tenTo (a.scale + b.scale) =
      a.value * b.value := by
  rw [value, value, tenTo_add, div_mul_div_comm]
  push_cast
  rfl

theorem mul_exact (left : a.OnGrid m) (right : b.OnGrid n) (few : m + n ≤ 28)
    (small : |a.value * b.value| * tenTo (m + n) < bound) :
    ∃ product, a.mul b = .ok product ∧ product.value = a.value * b.value := by
  obtain ⟨unitsA, gridA⟩ := (onGrid_iff m a).mp left
  obtain ⟨unitsB, gridB⟩ := (onGrid_iff n b).mp right
  have grid : a.value * b.value * tenTo (m + n) = (unitsA * unitsB : Int) := by
    rw [tenTo_add]
    push_cast
    rw [← gridA, ← gridB]
    ring
  have fits := natAbs_lt_of_abs_lt grid small
  have exact : a.coefficient * b.coefficient * tenTo (m + n) =
      unitsA * unitsB * tenTo (a.scale + b.scale) := by
    rw [← product_value, div_mul_eq_mul_div, div_eq_iff (tenTo_ne_zero_rat _)] at grid
    exact_mod_cast grid
  unfold mul
  split_ifs with zero tiny
  · refine ⟨0, rfl, ?_⟩
    rcases zero with zero | zero <;> simp [value_of_coefficient_zero zero]
  · -- a product as small as this is a multiple of a unit only if it is zero
    refine ⟨0, rfl, ?_⟩
    have none := natAbs_eq_zero_of_tiny tiny few exact
    rw [Int.natAbs_eq_zero] at none
    have scale := tenTo_ne_zero_rat (m + n)
    rw [none, Int.cast_zero, mul_eq_zero_iff_right scale] at grid
    rw [grid, value_zero]
  · by_cases scale_le : a.scale + b.scale ≤ 28
    · rw [← product_value] at grid
      obtain ⟨product, fitted, same⟩ := fit_exact _ scale_le _ grid fits
      exact ⟨product, by rw [fitted, orOverflow], same.trans (product_value a b)⟩
    · obtain ⟨product, found, same⟩ :=
        nearest_exact _ _ _ (tenTo_pos _) few le_rfl exact fits
      refine ⟨product, ?_, same.trans (product_value a b)⟩
      rw [fit, if_neg scale_le, found, orOverflow]

theorem add_pos {sum : Decimal} (nonneg : 0 ≤ a.value) (positive : 0 < b.value)
    (added : a.add b = .ok sum) : 0 < sum.value := by
  by_cases zeroA : a.coefficient = 0
  · rw [add, if_pos zeroA] at added
    cases added
    exact positive
  by_cases zeroB : b.coefficient = 0
  · rw [value_of_coefficient_zero zeroB] at positive
    exact absurd positive (lt_irrefl 0)
  obtain ⟨fewerA, fewerB, scale_le⟩ := wider_scale a b
  simp only [add, if_neg zeroA, if_neg zeroB] at added
  generalize (if a.scale ≤ b.scale then b.scale else a.scale) = scale at *
  have total : 0 < ((a.coefficient * tenTo (scale - a.scale) +
      b.coefficient * tenTo (scale - b.scale) : Int) : ℚ) / tenTo scale := by
    rw [Int.cast_add, add_div, value_at_scale fewerA, value_at_scale fewerB]
    linarith
  cases fitted : fit (a.coefficient * tenTo (scale - a.scale) +
      b.coefficient * tenTo (scale - b.scale)) scale with
  | none =>
      rw [fitted] at added
      cases added
  | some result =>
      rw [fitted] at added
      cases added
      rw [fit, if_pos scale_le] at fitted
      apply nearest_pos (tenTo_pos scale) scale_le fitted
      rw [div_mul_cancel₀ _ (tenTo_ne_zero_rat scale)]
      rw [div_pos_iff_of_pos_right (tenTo_pos_rat scale)] at total
      exact_mod_cast Int.add_one_le_iff.mpr (Int.cast_pos.mp total)

end Products

section Moderate
variable {a b c : Decimal}

/-- A multiple of `10 ^ -8` from zero to ten billion. -/
structure Moderate (a : Decimal) : Prop where
  grid : a.OnGrid 8
  nonneg : 0 ≤ a.value
  most : a.value ≤ 10 ^ 10

theorem Moderate.of_value (moderate : b.Moderate) (same : a.value = b.value) : a.Moderate where
  grid := onGrid_of_value same moderate.grid
  nonneg := same ▸ moderate.nonneg
  most := same ▸ moderate.most

theorem tenTo_cast (n : Nat) : (tenTo n : ℚ) = 10 ^ n := by
  rw [tenTo, Nat.pow_eq, Nat.cast_pow, Nat.cast_ofNat]

theorem tenTo_le {m n : Nat} (fewer : m ≤ n) : (tenTo m : ℚ) ≤ tenTo n := by
  exact_mod_cast Nat.pow_le_pow_right (by decide) fewer

theorem scaled_lt_bound {x : ℚ} {places : Nat} (most : x ≤ 10 ^ 10) (few : places ≤ 16) :
    x * tenTo places < bound := by
  have scaled := mul_le_mul most (tenTo_le few) (tenTo_pos_rat places).le (by norm_num)
  rw [tenTo_cast 16] at scaled
  norm_num [bound] at scaled ⊢
  linarith

theorem onGrid_mono {m n : Nat} (fewer : m ≤ n) (grid : a.OnGrid m) : a.OnGrid n := by
  obtain ⟨units, same⟩ := (onGrid_iff m a).mp grid
  refine (onGrid_iff n a).mpr ⟨units * tenTo (n - m), ?_⟩
  rw [tenTo_split fewer]
  push_cast
  rw [← mul_assoc, same]

theorem unit_le_of_onGrid (grid : b.OnGrid 8) (positive : 0 < b.value) :
    1 ≤ b.value * 10 ^ 8 := by
  obtain ⟨units, same⟩ := (onGrid_iff 8 b).mp grid
  rw [tenTo_cast] at same
  rw [same]
  have some : (0 : ℚ) < units := by
    rw [← same]
    positivity
  exact_mod_cast Int.cast_pos.mp some

theorem product_units (left : a.OnGrid 8) (right : b.OnGrid 8) :
    ∃ units : Int, a.value * b.value * 10 ^ 16 = units := by
  obtain ⟨unitsA, gridA⟩ := (onGrid_iff 8 a).mp left
  obtain ⟨unitsB, gridB⟩ := (onGrid_iff 8 b).mp right
  refine ⟨unitsA * unitsB, ?_⟩
  push_cast
  rw [← gridA, ← gridB]
  norm_num [tenTo]
  ring

theorem unit_below_product (left : a.OnGrid 8) (first : b.OnGrid 8) (second : c.OnGrid 8)
    (less : a.value < b.value * c.value) :
    a.value * 10 ^ 16 + 1 ≤ b.value * c.value * 10 ^ 16 := by
  obtain ⟨product, product_grid⟩ := product_units first second
  obtain ⟨single, single_grid⟩ := (onGrid_iff 16 a).mp (onGrid_mono (by decide) left)
  rw [tenTo_cast] at single_grid
  have apart : (single : ℚ) < product := by
    rw [← single_grid, ← product_grid]
    exact mul_lt_mul_of_pos_right less (by norm_num)
  rw [product_grid, single_grid]
  exact_mod_cast apart

theorem Moderate.unit_le (right : b.Moderate) (positive : 0 < b.value) :
    1 ≤ b.value * 10 ^ 8 := unit_le_of_onGrid right.grid positive

theorem Moderate.ratio_le (left : a.Moderate) (right : b.Moderate) (positive : 0 < b.value) :
    a.value / b.value ≤ 10 ^ 18 := by
  rw [div_le_iff₀ positive]
  linarith [left.most, right.unit_le positive]

theorem Moderate.exists_div (left : a.Moderate) (right : b.Moderate) (positive : 0 < b.value) :
    ∃ c, a.div b = .ok c := by
  apply Decimal.exists_div positive.ne'
  have most := left.ratio_le right positive
  rw [abs_of_nonneg (div_nonneg left.nonneg positive.le)]
  norm_num [bound] at most ⊢
  linarith

theorem div_nonneg_of_moderate (left : a.Moderate) (positive : 0 < b.value)
    (divided : a.div b = .ok c) : 0 ≤ c.value := by
  obtain ⟨digits, -, ⟨units, grid⟩, error, -⟩ := div_error positive.ne' divided
  have scale := tenTo_pos_rat digits
  have below := (abs_le.mp (scaled_error error)).1
  have exact := mul_nonneg (div_nonneg left.nonneg positive.le) scale.le
  rw [grid] at below
  have above : ((-1 : Int) : ℚ) < units := by
    push_cast
    linarith
  have whole : 0 ≤ units := by
    rw [Int.cast_lt] at above
    omega
  rw [← mul_nonneg_iff_of_pos_right scale, grid]
  exact_mod_cast whole

/-- A quotient with eight places is never rounded up past the exact one: the
product with the divisor is back within the dividend. -/
theorem div_truncate_le {places : Nat} (few : places ≤ 8) (left : a.Moderate) (right : b.Moderate)
    (positive : 0 < b.value) (divided : a.div b = .ok c) :
    (c.truncate places).value * b.value ≤ a.value := by
  obtain ⟨digits, -, -, error, last⟩ := div_error positive.ne' divided
  have scale := tenTo_pos_rat digits
  obtain ⟨-, cut, -⟩ := truncate_bounds places (div_nonneg_of_moderate left positive divided)
  by_contra beyond
  rw [not_le] at beyond
  have apart := unit_below_product left.grid
    (onGrid_mono few (onGrid_of_scale_le (scale_truncate_le c places))) right.grid beyond
  -- the rounding error is too small for that
  have above : c.value * tenTo digits ≤ a.value / b.value * tenTo digits + 1 / 2 := by
    linarith [(abs_le.mp (scaled_error error)).2]
  have rounded : c.value * b.value * tenTo digits ≤ a.value * tenTo digits + b.value / 2 := by
    have scaled := mul_le_mul_of_nonneg_right above positive.le
    have back : (a.value / b.value * tenTo digits + 1 / 2) * b.value =
        a.value * tenTo digits + b.value / 2 := by
      field_simp
    rw [back] at scaled
    linarith
  have coarse : 2 * (tenTo digits : ℚ) ≤ b.value * 10 ^ 16 := by
    have kept := mul_le_mul_of_nonneg_right cut (mul_pos positive scale).le
    have unit := mul_le_mul_of_nonneg_right apart scale.le
    nlinarith only [kept, unit, rounded]
  rcases last with rfl | large
  · rw [tenTo_cast] at coarse
    linarith [right.most]
  · have ten : (tenTo (digits + 1) : ℚ) = tenTo digits * 10 := by
      rw [tenTo_cast, tenTo_cast, pow_succ]
    rw [abs_of_nonneg (div_nonneg left.nonneg positive.le), ten] at large
    have size : a.value / b.value * (tenTo digits * 10) ≤ a.value * (5 * 10 ^ 16) := by
      rw [div_mul_eq_mul_div, div_le_iff₀ positive]
      have share := mul_le_mul_of_nonneg_left coarse left.nonneg
      linarith
    have most := left.most
    norm_num [bound] at large
    linarith

/-- Nor is it rounded down by a unit of the places it is cut to. -/
theorem lt_div_truncate {places : Nat} (few : places ≤ 8) (left : a.Moderate) (right : b.Moderate)
    (positive : 0 < b.value) (divided : a.div b = .ok c) :
    a.value * tenTo places < ((c.truncate places).value * tenTo places + 1) * b.value := by
  obtain ⟨digits, -, ⟨units, grid⟩, error, last⟩ := div_error positive.ne' divided
  have scale := tenTo_pos_rat digits
  obtain ⟨-, -, below⟩ := truncate_bounds places (div_nonneg_of_moderate left positive divided)
  by_contra beyond
  rw [not_lt] at beyond
  -- the quotient is not too large to keep these places
  have enough : places ≤ digits := by
    by_contra short
    rcases last with rfl | large
    · omega
    · have fewer := tenTo_le (show digits + 1 ≤ 8 by omega)
      rw [abs_of_nonneg (div_nonneg left.nonneg positive.le)] at large
      have size := mul_le_mul (left.ratio_le right positive) (fewer.trans (tenTo_cast 8).le)
        (tenTo_pos_rat _).le (by norm_num)
      norm_num [bound] at large size
      linarith
  -- on the finer grid the quotient is a whole unit below the next place
  have split := tenTo_split enough
  obtain ⟨whole, cut_grid⟩ := (onGrid_iff places (c.truncate places)).mp
    (onGrid_of_scale_le (scale_truncate_le c places))
  have fine := tenTo_pos_rat (digits - places)
  have finer : (tenTo digits : ℚ) = tenTo places * tenTo (digits - places) := by
    rw [split]
    push_cast
    rfl
  have next : c.value * tenTo digits + 1 ≤ (whole + 1) * tenTo (digits - places) := by
    have less : c.value * tenTo digits < (whole + 1) * tenTo (digits - places) := by
      rw [finer, ← mul_assoc, ← cut_grid]
      exact mul_lt_mul_of_pos_right below fine
    rw [grid] at less ⊢
    exact_mod_cast less
  have reached :
      (whole + 1) * (tenTo (digits - places) : ℚ) ≤ a.value / b.value * tenTo digits := by
    rw [finer, ← mul_assoc, ← cut_grid]
    apply mul_le_mul_of_nonneg_right _ fine.le
    rw [div_mul_eq_mul_div, le_div_iff₀ positive]
    exact beyond
  linarith [(abs_le.mp (scaled_error error)).1]

end Moderate

end SpotExchange.Decimal
