import SpotExchange.Decimal.Text
import SpotExchange.Proofs.DigitRuns

/-!
A decimal is read back from its text with every place it was written with. The digits after
the point are appended one by one; as the number they end in is in range, so is each one on
the way, and no digit is left to round.
-/

namespace SpotExchange.Decimal

section fraction

variable {ds : List Nat}

theorem groupedDigits?_digits (digits : AreDigits ds) :
    groupedDigits? (ds.map digitChar) = some ds := by
  induction ds with
  | nil => rfl
  | cons d ds ih =>
    have small : d < 10 := digits d List.mem_cons_self
    have notMark : digitChar d ≠ '_' := digitChar_ne small rfl
    simp [groupedDigits?, ih digits.tail, notMark, digitValue?_digitChar small]

/-- Digits that end in a number in range are all appended. -/
theorem appendFraction_digits (digits : AreDigits ds) {size scale : Nat}
    (places : scale + ds.length ≤ 28) (within : appendDigits size ds < bound) :
    appendFraction size scale (ds.map digitChar) =
      some (appendDigits size ds, scale + ds.length) := by
  induction ds generalizing size scale with
  | nil => rfl
  | cons d ds ih =>
    rw [List.length_cons] at places
    have small : d < 10 := digits d List.mem_cons_self
    have fits : ¬(scale = 28 ∨ bound ≤ size * 10 + d) := by
      have := le_appendDigits (size * 10 + d) ds
      rw [appendDigits_cons] at within
      omega
    have count : scale + (ds.length + 1) = scale + 1 + ds.length := by omega
    rw [count] at places
    rw [List.map_cons, appendFraction, digitValue?_digitChar small]
    simp only [if_neg fits, ih digits.tail places within, appendDigits_cons, List.length_cons,
      count]

end fraction

/-- What stands behind the point, with the point itself unless there is nothing. -/
def pointText (a : Decimal) : List Char :=
  if a.scale = 0 then []
  else '.' :: (lastDigits a.scale a.coefficient.natAbs).map digitChar

def wholeText (a : Decimal) : List Char := numeral (a.coefficient.natAbs / tenTo a.scale)

theorem toList_toText (a : Decimal) :
    a.toText.toList =
      (if a.coefficient < 0 then ['-'] else []) ++ (a.wholeText ++ a.pointText) := by
  simp [toText, wholeText, pointText]

theorem split_at_point (a : Decimal) :
    (a.wholeText ++ a.pointText).takeWhile (· ≠ '.') = a.wholeText ∧
      ((a.wholeText ++ a.pointText).dropWhile (· ≠ '.')).drop 1 =
        (lastDigits a.scale a.coefficient.natAbs).map digitChar := by
  have plain : ∀ c ∈ a.wholeText, c ≠ '.' := by
    intro c member
    obtain ⟨d, digit, rfl⟩ := List.mem_map.1 member
    exact digitChar_ne (digits_areDigits _ d digit) rfl
  have kept : ∀ c ∈ a.wholeText, decide (c ≠ '.') = true := fun c member =>
    decide_eq_true (plain c member)
  rw [List.takeWhile_append_of_pos kept, List.dropWhile_append_of_pos kept, pointText]
  by_cases none : a.scale = 0
  · simp [none, lastDigits]
  · simp [none]

theorem takeSign_toText (a : Decimal) :
    takeSign a.toText.toList = (decide (a.coefficient < 0), a.wholeText ++ a.pointText) := by
  rw [toList_toText]
  by_cases negative : a.coefficient < 0
  · simp [negative, takeSign]
  · have begins : BeginsWithDigit (a.wholeText ++ a.pointText) := (numeral_begins _).append _
    rw [if_neg negative, List.nil_append, decide_eq_false negative]
    exact takeSign.eq_3 _ (begins.ne_cons rfl) (begins.ne_cons rfl)

theorem signed_coefficient (a : Decimal) :
    (if decide (a.coefficient < 0) then -(a.coefficient.natAbs : Int) else a.coefficient.natAbs) =
      a.coefficient := by
  by_cases negative : a.coefficient < 0
  · rw [if_pos (decide_eq_true negative)]
    omega
  · rw [if_neg (by simpa using negative)]
    omega

theorem ofPlain?_toText (a : Decimal) : ofPlain? a.toText.toList = some a := by
  have inRange : a.coefficient.natAbs / tenTo a.scale < bound :=
    Nat.lt_of_le_of_lt (Nat.div_le_self _ _) a.coefficient_lt
  have whole : groupedDigits? a.wholeText = some (digits (a.coefficient.natAbs / tenTo a.scale)) :=
    groupedDigits?_digits (digits_areDigits _)
  have behind := lastDigits_areDigits a.scale a.coefficient.natAbs
  have size := appendDigits_lastDigits a.scale a.coefficient.natAbs
  have appended : appendFraction (a.coefficient.natAbs / tenTo a.scale) 0
      ((lastDigits a.scale a.coefficient.natAbs).map digitChar) =
        some (a.coefficient.natAbs, a.scale) := by
    rw [appendFraction_digits behind, size, length_lastDigits, Nat.zero_add]
    · rw [length_lastDigits, Nat.zero_add]
      exact a.scale_le
    · rw [size]
      exact a.coefficient_lt
  obtain ⟨d, small, tail, head⟩ := numeral_begins (a.coefficient.natAbs / tenTo a.scale)
  have first : (a.wholeText ++ (lastDigits a.scale a.coefficient.natAbs).map digitChar).head?.bind
      digitValue? = some d := by
    rw [wholeText, head]
    exact digitValue?_digitChar small
  rw [ofPlain?, takeSign_toText]
  simp only [(split_at_point a).1, (split_at_point a).2, first, whole, groupedDigits?_digits behind,
    ofDigits_digits, if_neg (Nat.not_le_of_lt inRange), appended, Option.bind_eq_bind,
    Option.bind_some]
  rw [signed_coefficient]
  exact dif_pos ⟨a.coefficient_lt, a.scale_le⟩

theorem ofText?_toText (a : Decimal) : ofText? a.toText = some a := by
  rw [ofText?, ofPlain?_toText, Option.some_or]

end SpotExchange.Decimal
