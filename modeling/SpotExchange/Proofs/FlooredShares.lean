import SpotExchange.Proofs.DecimalRange
import SpotExchange.Listing

/-!
Shares that are cut to the places of a quantity. A share is rounded when it is divided and
cut after that, and rounding could lift it over a unit that the exact share does not reach.
Below a unit the exact share stays away from it by at least one part of its divisor, and
that is more than what rounding adds. So the share is cut where the exact one would be.
-/

namespace SpotExchange

namespace Decimal

section Quotients
variable {s places : Nat} {a b c : Decimal}

/-- A quotient to be cut to a number of places: dividend and divisor are whole numbers of
small units, and neither is more than `10 ^ 28` of the smallest. -/
structure Cuttable (s places : Nat) (a b : Decimal) : Prop where
  places_le : places ≤ s
  dividend : a.OnGrid (s + s)
  divisor : b.OnGrid s
  nonneg : 0 ≤ a.value
  positive : 0 < b.value
  dividend_le : a.value * tenTo (s + s) ≤ 10 ^ 28
  divisor_le : b.value * tenTo (s + s) ≤ 10 ^ 28

theorem tenTo_add_rat (m n : Nat) : (tenTo (m + n) : ℚ) = tenTo m * tenTo n := by
  rw [tenTo_add, Nat.cast_mul]

theorem Cuttable.ratio_nonneg (cuttable : Cuttable s places a b) : 0 ≤ a.value / b.value :=
  div_nonneg cuttable.nonneg cuttable.positive.le

theorem Cuttable.ratio_le (cuttable : Cuttable s places a b) :
    a.value / b.value * tenTo s ≤ 10 ^ 28 := by
  have scale := tenTo_pos_rat s
  obtain ⟨units, grid⟩ := (onGrid_iff s b).mp cuttable.divisor
  have some : (0 : ℚ) < units := grid ▸ mul_pos cuttable.positive scale
  have unit : (1 : ℚ) ≤ b.value * tenTo s := by
    rw [grid]
    exact_mod_cast Int.cast_pos.mp some
  have most := cuttable.dividend_le
  rw [tenTo_add_rat, ← mul_assoc] at most
  rw [div_mul_eq_mul_div, div_le_iff₀ cuttable.positive]
  -- a dividend of more than that would be more than `10 ^ 28` units even of a divisor of one
  refine le_of_mul_le_mul_right ?_ scale
  calc a.value * tenTo s * tenTo s ≤ 10 ^ 28 * 1 := by linarith
    _ ≤ 10 ^ 28 * (b.value * tenTo s) := mul_le_mul_of_nonneg_left unit (by norm_num)
    _ = 10 ^ 28 * b.value * tenTo s := by ring

/-- The next unit above the exact quotient is away from it by one part of the divisor. -/
theorem Cuttable.gap (cuttable : Cuttable s places a b) :
    a.value / b.value * tenTo places + tenTo places / (b.value * tenTo (s + s)) ≤
      ⌊a.value / b.value * tenTo places⌋ + 1 := by
  obtain ⟨dividend, dividend_grid⟩ := (onGrid_iff (s + s) a).mp cuttable.dividend
  obtain ⟨divisor, divisor_grid⟩ := (onGrid_iff s b).mp cuttable.divisor
  have fine := tenTo_pos_rat (s - places)
  have parts : 0 < b.value * tenTo s * tenTo (s - places) :=
    mul_pos (mul_pos cuttable.positive (tenTo_pos_rat s)) fine
  have split : (tenTo s : ℚ) = tenTo places * tenTo (s - places) := by
    rw [tenTo_split cuttable.places_le, Nat.cast_mul]
  have coarse := tenTo_ne_zero_rat places
  have divisor_ne := cuttable.positive.ne'
  -- counted in parts of the divisor, the quotient and the unit above it are whole numbers
  have counted : a.value / b.value * tenTo places * (b.value * tenTo s * tenTo (s - places)) =
      dividend := by
    rw [← dividend_grid, tenTo_add_rat, split]
    field_simp
  have above := Int.lt_floor_add_one (a.value / b.value * tenTo places)
  rw [← mul_lt_mul_iff_of_pos_right parts, counted] at above
  have next : (⌊a.value / b.value * tenTo places⌋ + 1 : ℚ) *
      (b.value * tenTo s * tenTo (s - places)) =
        ((⌊a.value / b.value * tenTo places⌋ + 1) * divisor * tenTo (s - places) : Int) := by
    rw [divisor_grid]
    push_cast
    ring
  have apart : (dividend : ℚ) + 1 ≤ (⌊a.value / b.value * tenTo places⌋ + 1) *
      (b.value * tenTo s * tenTo (s - places)) := by
    rw [next] at above ⊢
    exact_mod_cast above
  have part : tenTo places / (b.value * tenTo (s + s)) *
      (b.value * tenTo s * tenTo (s - places)) = 1 := by
    rw [tenTo_add_rat, split]
    field_simp
  rw [← mul_le_mul_iff_of_pos_right parts, add_mul, counted, part]
  exact apart

/-- The last place of the rounded quotient is fine enough: half a unit of it is less than
one part of the divisor, whether it has all 28 places or the most that are in range. -/
theorem Cuttable.half_unit_lt (cuttable : Cuttable s places a b) {digits : Nat}
    (last : digits = 28 ∨ (bound : ℚ) ≤ |a.value / b.value| * tenTo (digits + 1) + 1 / 2) :
    b.value * tenTo (s + s) < 2 * tenTo digits := by
  rcases last with rfl | large
  · have most := cuttable.divisor_le
    rw [tenTo_cast 28]
    linarith
  · have ratio := cuttable.ratio_nonneg
    have ten : (tenTo (digits + 1) : ℚ) = tenTo digits * 10 := by
      rw [tenTo_add_rat, tenTo_cast 1, pow_one]
    rw [abs_of_nonneg ratio, ten] at large
    norm_num [bound] at large
    have whole : a.value / b.value * (b.value * tenTo (s + s)) ≤ 10 ^ 28 := by
      rw [← mul_assoc, div_mul_cancel₀ _ cuttable.positive.ne']
      exact cuttable.dividend_le
    have less : a.value / b.value * (b.value * tenTo (s + s)) <
        a.value / b.value * (2 * tenTo digits) := by
      norm_num at whole
      linarith
    exact lt_of_mul_lt_mul_left less ratio

theorem Cuttable.enough (cuttable : Cuttable s places a b) (few : s ≤ 28) {digits : Nat}
    (last : digits = 28 ∨ (bound : ℚ) ≤ |a.value / b.value| * tenTo (digits + 1) + 1 / 2) :
    places ≤ digits := by
  have within := cuttable.places_le
  rcases last with rfl | large
  · omega
  · by_contra short
    have fewer := mul_le_mul_of_nonneg_left (tenTo_le (show digits + 1 ≤ s by omega))
      cuttable.ratio_nonneg
    have most := cuttable.ratio_le
    rw [abs_of_nonneg cuttable.ratio_nonneg] at large
    norm_num [bound] at large most
    linarith

/-- A quotient that was rounded and then cut is the exact one, cut. -/
theorem Cuttable.floor_div (cuttable : Cuttable s places a b) (few : s ≤ 28)
    (divided : a.div b = .ok c) :
    (c.truncate places).value * tenTo places = ⌊a.value / b.value * tenTo places⌋ := by
  have nonneg := (div_bounds cuttable.nonneg cuttable.positive divided).1
  obtain ⟨digits, -, ⟨units, grid⟩, error, last⟩ := div_error cuttable.positive.ne' divided
  have enough := cuttable.enough few last
  have finer := tenTo_pos_rat (digits - places)
  have split : (tenTo digits : ℚ) = tenTo places * tenTo (digits - places) := by
    rw [tenTo_split enough, Nat.cast_mul]
  have rounding := abs_le.mp (scaled_error error)
  have gap := cuttable.gap
  rw [truncate_floor places nonneg, Int.cast_inj, Int.floor_eq_iff]
  have below := Int.floor_le (a.value / b.value * tenTo places)
  generalize ⌊a.value / b.value * tenTo places⌋ = whole at below gap ⊢
  constructor
  · -- the unit below the exact quotient is on the grid of the rounded one
    have reached : (whole : ℚ) * tenTo (digits - places) ≤ a.value / b.value * tenTo digits := by
      rw [split, ← mul_assoc]
      exact mul_le_mul_of_nonneg_right below finer.le
    have kept : whole * tenTo (digits - places) ≤ units := by
      have near : ((whole * tenTo (digits - places) : Int) : ℚ) < (units + 1 : Int) := by
        push_cast
        rw [← grid]
        linarith [rounding.1]
      exact Int.lt_add_one_iff.mp (Int.cast_lt.mp near)
    rw [← mul_le_mul_iff_of_pos_right finer, mul_assoc, ← split, grid]
    exact_mod_cast kept
  · have fine := cuttable.half_unit_lt last
    have parts : 0 < b.value * tenTo (s + s) := mul_pos cuttable.positive (tenTo_pos_rat _)
    have half :
        (1 / 2 : ℚ) < tenTo places / (b.value * tenTo (s + s)) * tenTo (digits - places) := by
      rw [div_mul_eq_mul_div, ← split, div_lt_div_iff₀ two_pos parts]
      linarith
    have lifted := mul_le_mul_of_nonneg_right gap finer.le
    rw [add_mul, mul_assoc (a.value / b.value), ← split] at lifted
    rw [← mul_lt_mul_iff_of_pos_right finer, mul_assoc, ← split]
    linarith [rounding.2]

theorem Cuttable.greatest (cuttable : Cuttable s places a b) (few : s ≤ 28)
    (divided : a.div b = .ok c) :
    IsGreatest {x : ℚ | (∃ units : ℤ, x = units / 10 ^ places) ∧ x ≤ a.value / b.value}
      (c.truncate places).value := by
  have scale := tenTo_pos_rat places
  have floor := cuttable.floor_div few divided
  rw [← tenTo_cast]
  refine ⟨⟨⟨_, (eq_div_iff scale.ne').mpr floor⟩, ?_⟩, ?_⟩
  · rw [← mul_le_mul_iff_of_pos_right scale]
    exact floor.trans_le (Int.floor_le _)
  · rintro _ ⟨⟨units, rfl⟩, within⟩
    have reached : units ≤ ⌊a.value / b.value * tenTo places⌋ := by
      rw [Int.le_floor, ← div_le_iff₀ scale]
      exact within
    rw [div_le_iff₀ scale, floor]
    exact_mod_cast reached

theorem Cuttable.exists_div (cuttable : Cuttable s places a b) : ∃ c, a.div b = .ok c := by
  have ratio := cuttable.ratio_nonneg
  have most := cuttable.ratio_le
  have grown := mul_le_mul_of_nonneg_left (tenTo_le (Nat.zero_le s)) ratio
  rw [tenTo_cast 0, pow_zero, mul_one] at grown
  apply Decimal.exists_div cuttable.positive.ne'
  rw [abs_of_nonneg ratio]
  norm_num [bound] at most ⊢
  linarith

theorem exists_product (left : a.OnGrid s) (right : b.OnGrid s) (few : s + s ≤ 28)
    (nonneg : 0 ≤ a.value * b.value) (small : a.value * b.value * tenTo (s + s) ≤ 10 ^ 28) :
    ∃ product, a.mul b = .ok product ∧ product.value = a.value * b.value ∧
      product.OnGrid (s + s) := by
  have in_range : |a.value * b.value| * tenTo (s + s) < bound := by
    rw [abs_of_nonneg nonneg]
    norm_num [bound] at small ⊢
    linarith
  obtain ⟨product, multiplied, same⟩ := mul_exact left right few in_range
  obtain ⟨first, first_grid⟩ := (onGrid_iff s a).mp left
  obtain ⟨second, second_grid⟩ := (onGrid_iff s b).mp right
  refine ⟨product, multiplied, same, (onGrid_iff _ _).mpr ⟨first * second, ?_⟩⟩
  rw [same, tenTo_add_rat, Int.cast_mul, ← first_grid, ← second_grid]
  ring

end Quotients

end Decimal

/-- Shares are cut exactly. For amounts that are multiples of `10 ^ -s` with at most
fourteen places, and small enough for their product and their total to have at most
`10 ^ 28` units of twice these places, the share of a part can be computed, and cut to the
places of a quantity it is the largest multiple of the unit that is not above the exact
share. -/
theorem share_floored_exactly {s : Nat} {amount part total : Decimal} {listing : Listing}
    (few : s ≤ 14) (fewer : listing.baseScale ≤ s) (amount_grid : amount.OnGrid s)
    (part_grid : part.OnGrid s) (total_grid : total.OnGrid s) (amount_nonneg : 0 ≤ amount)
    (part_nonneg : 0 ≤ part) (positive : 0 < total)
    (product_le : amount.value * part.value * 10 ^ (2 * s) ≤ 10 ^ 28)
    (total_le : total.value * 10 ^ (2 * s) ≤ 10 ^ 28) :
    ∃ share, proRata amount part total = .ok share ∧
      IsGreatest {x : ℚ | (∃ units : ℤ, x = units / 10 ^ listing.baseScale) ∧
        x ≤ amount.value * part.value / total.value} (listing.floorBase share).value := by
  rw [Decimal.nonneg_iff] at amount_nonneg part_nonneg
  rw [Decimal.pos_iff] at positive
  rw [← Decimal.tenTo_cast, two_mul] at product_le total_le
  have nonneg := mul_nonneg amount_nonneg part_nonneg
  obtain ⟨product, multiplied, same, product_grid⟩ :=
    Decimal.exists_product amount_grid part_grid (by omega) nonneg product_le
  rw [← same] at nonneg product_le ⊢
  have cuttable : Decimal.Cuttable s listing.baseScale product total :=
    ⟨fewer, product_grid, total_grid, nonneg, positive, product_le, total_le⟩
  obtain ⟨share, divided⟩ := cuttable.exists_div
  have shared : proRata amount part total = .ok share := by
    simp only [proRata, multiplied, bind, Except.bind, divided]
  exact ⟨share, shared, cuttable.greatest (by omega) divided⟩

def Listing.fourteenPlaces : Listing := { Listing.named "coin" with baseScale := 14 }

theorem sample_share_floored : ∃ share,
    proRata (.ofParts 99999999999998 14) (.ofParts 1 14) (.ofParts 99999999999999 14) =
        .ok share ∧
      (share.coefficient, share.scale) = (99999999999999, 28) ∧
      (Listing.fourteenPlaces.floorBase share).coefficient = 0 ∧
      IsGreatest {x : ℚ | (∃ units : ℤ, x = units / 10 ^ Listing.fourteenPlaces.baseScale) ∧
        x ≤ (Decimal.ofParts 99999999999998 14).value * (Decimal.ofParts 1 14).value /
          (Decimal.ofParts 99999999999999 14).value}
        (Listing.fourteenPlaces.floorBase share).value := by
  have shared : ∃ share,
      proRata (.ofParts 99999999999998 14) (.ofParts 1 14) (.ofParts 99999999999999 14) =
          .ok share ∧
        (share.coefficient, share.scale) = (99999999999999, 28) ∧
        (Listing.fourteenPlaces.floorBase share).coefficient = 0 :=
    ⟨_, rfl, by decide +kernel, by decide +kernel⟩
  obtain ⟨share, same, parts, nothing⟩ := shared
  have product_le : (Decimal.ofParts 99999999999998 14).value * (Decimal.ofParts 1 14).value *
      10 ^ (2 * 14) ≤ 10 ^ 28 := by
    norm_num [Decimal.value_ofParts, tenTo]
  have total_le : (Decimal.ofParts 99999999999999 14).value * 10 ^ (2 * 14) ≤ 10 ^ 28 := by
    norm_num [Decimal.value_ofParts, tenTo]
  have places : Listing.fourteenPlaces.baseScale ≤ 14 := le_rfl
  obtain ⟨share', same', greatest⟩ := share_floored_exactly le_rfl places (by decide +kernel)
    (by decide +kernel) (by decide +kernel) (by decide +kernel) (by decide +kernel)
    (by decide +kernel) product_le total_le
  obtain rfl : share = share' := Except.ok.inj (same.symm.trans same')
  exact ⟨share, same, parts, nothing, greatest⟩

end SpotExchange
