import SpotExchange.Instant.Text
import SpotExchange.Proofs.CalendarDates
import SpotExchange.Proofs.DigitRuns

/-!
An instant is read back from its text. Every part is written with a width of its own, so it
is read up to the mark behind it, and the date and the time of day give the second again.
-/

namespace SpotExchange.Instant

section parts

variable {rest : List Char}

theorem leadingDigits_digits {ds : List Nat} (digits : AreDigits ds) {limit : Nat}
    (within : ds.length ≤ limit) (ends : EndsDigits (rest.take (limit - ds.length))) :
    leadingDigits limit (ds.map digitChar ++ rest) = ds := by
  have front : (ds.map digitChar).take limit = ds.map digitChar :=
    List.take_of_length_le (by rwa [List.length_map])
  rw [leadingDigits, List.take_append, front, List.length_map, takeWhile_digits digits ends,
    filterMap_digits digits]

theorem takeNumber?_digits {ds : List Nat} (digits : AreDigits ds) (some : ds ≠ []) {limit : Nat}
    (within : ds.length ≤ limit) (ends : EndsDigits (rest.take (limit - ds.length))) :
    takeNumber? limit (ds.map digitChar ++ rest) = .some (ofDigits ds, rest) := by
  rw [takeNumber?, leadingDigits_digits digits within ends]
  cases ds with
  | nil => exact absurd rfl some
  | cons d ds => simp

theorem padded_eq {width n : Nat} (small : n < tenTo width) :
    padded width n = (lastDigits width n).map digitChar := if_pos small

theorem takeNumber?_padded {width n : Nat} (small : n < tenTo (width + 1)) :
    takeNumber? (width + 1) (padded (width + 1) n ++ rest) = some (n, rest) := by
  have filled : lastDigits (width + 1) n ≠ [] := by simp [lastDigits]
  rw [padded_eq small, takeNumber?_digits (lastDigits_areDigits _ n) filled,
    ofDigits_lastDigits small]
  · rw [length_lastDigits]
  · simp [EndsDigits]

theorem padded_begins {width n : Nat} (small : n < tenTo (width + 1)) :
    BeginsWithDigit (padded (width + 1) n) := by
  rw [padded_eq small]
  exact (lastDigits_areDigits (width + 1) n).begin (by simp [lastDigits])

theorem skipBlanks_padded {width n : Nat} (small : n < tenTo (width + 1)) :
    skipBlanks (padded (width + 1) n ++ rest) = padded (width + 1) n ++ rest := by
  have visible : ∀ d < 10, isBlankChar (digitChar d) = false := by decide
  obtain ⟨d, digit, tail, head⟩ := padded_begins small
  simp [skipBlanks, head, visible d digit]

theorem takePart?_padded {n : Nat} (small : n < 100) :
    takePart? (padded 2 n ++ rest) = some (n, rest) := by
  rw [takePart?, skipBlanks_padded small, takeNumber?_padded small]

theorem takeNext?_padded (mark : Char) (visible : isBlankChar mark = false) {n : Nat}
    (small : n < 100) : takeNext? mark (mark :: (padded 2 n ++ rest)) = some (n, rest) := by
  simp [takeNext?, skipBlanks, visible, takeOneOf?, takePart?_padded small]

theorem takeYear?_padded {year : Nat} (small : year < 10000) :
    takeYear? (padded 4 year ++ rest) = some ((year : Int), rest) := by
  have begins : BeginsWithDigit (padded 4 year ++ rest) := (padded_begins small).append rest
  rw [takeYear?, skipBlanks_padded small]
  split
  · exact (begins.ne_cons rfl _ ‹_›).elim
  · exact (begins.ne_cons rfl _ ‹_›).elim
  · rw [takeNumber?_padded small]
    rfl

theorem yearText_eq {year : Int} (first : 0 ≤ year) (last : year ≤ 9999) :
    yearText year = padded 4 year.toNat := by
  have size : year.natAbs = year.toNat := by omega
  rw [yearText, if_neg (by omega), if_neg (by omega), size]

theorem takeFraction?_point {width n nanos : Nat} (left : Nat) (nine : width + 1 + left = 9)
    (small : n < tenTo (width + 1)) (whole : n * tenTo left = nanos) (ends : EndsDigits rest) :
    takeFraction? ('.' :: (padded (width + 1) n ++ rest)) = some (nanos, rest) := by
  have filled : lastDigits (width + 1) n ≠ [] := by simp [lastDigits]
  have length := length_lastDigits (width + 1) n
  have read : leadingDigits (padded (width + 1) n ++ rest).length (padded (width + 1) n ++ rest) =
      lastDigits (width + 1) n := by
    rw [padded_eq small]
    apply leadingDigits_digits (lastDigits_areDigits _ n)
    · simp
    · simpa using ends
  have zeros : (lastDigits (width + 1) n ++ List.replicate 9 0).take 9 =
      lastDigits (width + 1) n ++ List.replicate left 0 := by
    rw [List.take_append, length, List.take_of_length_le (by omega), List.take_replicate]
    congr 2
    omega
  have value : nanosOf (lastDigits (width + 1) n) = nanos := by
    rw [nanosOf, zeros, ofDigits_append_zeros, ofDigits_lastDigits small, whole]
  rw [takeFraction?, read]
  cases shape : lastDigits (width + 1) n with
  | nil => exact absurd shape filled
  | cons d ds =>
    simp only [← shape, value, padded_eq small, length]
    simp [length]

theorem takeFraction?_text {nanos : Nat} (within : nanos < 1000000000) (ends : EndsDigits rest)
    (noPoint : ∀ text, rest = '.' :: text → False) :
    takeFraction? (fractionText nanos ++ rest) = some (nanos, rest) := by
  unfold fractionText
  split
  case isTrue zero => rw [List.nil_append, takeFraction?.eq_2 rest noPoint, zero]
  split
  case isTrue millis =>
    have small : nanos / 1000000 < 1000 := by omega
    have whole : nanos / 1000000 * 1000000 = nanos := by omega
    exact takeFraction?_point 6 rfl small whole ends
  split
  case isTrue micros =>
    have small : nanos / 1000 < 1000000 := by omega
    have whole : nanos / 1000 * 1000 = nanos := by omega
    exact takeFraction?_point 3 rfl small whole ends
  case isFalse => exact takeFraction?_point 0 rfl within (Nat.mul_one nanos) ends

end parts

/-- The second of the day an instant falls in. -/
def clock (instant : Instant) : Nat := (instant.seconds % 86400).toNat

theorem clock_lt (instant : Instant) : instant.clock < 86400 := by
  unfold clock
  omega

theorem seconds_of_parts (instant : Instant) :
    instant.date.toDays * 86400 + (instant.clock / 3600 : Nat) * 3600 +
      (instant.clock / 60 % 60 : Nat) * 60 + (instant.clock % 60 : Nat) = instant.seconds := by
  have days : instant.date.toDays = instant.seconds / 86400 := Date.toDays_ofDays _
  rw [days]
  unfold clock
  omega

theorem toList_toText (instant : Instant) (ordinary : instant.nanos < 1000000000)
    (first : 0 ≤ instant.date.year) (last : instant.date.year ≤ 9999) :
    instant.toText.toList =
      padded 4 instant.date.year.toNat ++
      '-' :: (padded 2 instant.date.month ++
      '-' :: (padded 2 instant.date.day ++
      'T' :: (padded 2 (instant.clock / 3600) ++
      ':' :: (padded 2 (instant.clock / 60 % 60) ++
      ':' :: (padded 2 (instant.clock % 60) ++
      (fractionText instant.nanos ++ ['Z'])))))) := by
  have noLeap : instant.nanos / 1000000000 = 0 := Nat.div_eq_of_lt ordinary
  have whole : instant.nanos % 1000000000 = instant.nanos := Nat.mod_eq_of_lt ordinary
  simp only [toText, yearText_eq first last, noLeap, whole, String.toList_ofList, clock]
  simp

/-- An instant within the years of four digits, no leap second, is read back. -/
theorem ofText?_toText (instant : Instant) (ordinary : instant.nanos < 1000000000)
    (first : 0 ≤ instant.date.year) (last : instant.date.year ≤ 9999) :
    ofText? instant.toText = some instant := by
  have valid : instant.date.valid := Date.valid_ofDays _
  obtain ⟨month, day⟩ := Date.short_of_valid valid
  have year : instant.date.year.toNat < 10000 := by omega
  have inDay := instant.clock_lt
  have hour : instant.clock / 3600 < 24 := by omega
  have minute : instant.clock / 60 % 60 < 60 := by omega
  have second : instant.clock % 60 < 60 := by omega
  have date : (⟨instant.date.year.toNat, instant.date.month, instant.date.day⟩ : Date) =
      instant.date := by
    rw [Int.toNat_of_nonneg first]
  have fraction : takeFraction? (fractionText instant.nanos ++ ['Z']) =
      some (instant.nanos, ['Z']) :=
    takeFraction?_text ordinary (by simp [EndsDigits, digitValue?]) (by simp)
  have offset : takeOffset? (skipBlanks ['Z']) = some (0, []) := rfl
  have noLeap : instant.clock % 60 ≠ 60 := Nat.ne_of_lt second
  have inRange : instant.date.inRange = true := by
    simp only [Date.inRange, Bool.and_eq_true, decide_eq_true_eq]
    omega
  have letter : ∀ rest, takeOneOf? ['T', 't', ' '] ('T' :: rest) = some rest :=
    fun rest => by simp [takeOneOf?]
  rw [ofText?, toList_toText instant ordinary first last, takeYear?_padded year]
  simp only [Option.bind_eq_bind, Option.bind_some, takeNext?_padded '-' rfl month,
    takeNext?_padded '-' rfl day, letter, takePart?_padded (Nat.lt_trans hour (by decide)),
    takeNext?_padded ':' rfl (Nat.lt_trans minute (by decide)),
    takeNext?_padded ':' rfl (Nat.lt_trans second (by decide)), fraction, offset, date,
    if_neg noLeap, Nat.sub_zero, Int.sub_zero, Nat.zero_mul, Nat.add_zero, instant.seconds_of_parts]
  exact if_pos ⟨valid, inRange, hour, minute, Nat.le_of_lt second, inRange, rfl⟩

end SpotExchange.Instant
