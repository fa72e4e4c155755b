import SpotExchange.Decimal.Arithmetic
import SpotExchange.Digits

/-!
Binary floating-point numbers of 64 bits without their sign: rounding to the
nearest one, products and quotients, and the shortest decimal that reads back.
-/

namespace SpotExchange

/-- The number `significand * 2 ^ exponent`, with 53 bits at most. -/
structure Binary64 where
  significand : Nat
  exponent : Int
  deriving DecidableEq

namespace Binary64

def twoTo (n : Nat) : Nat := Nat.pow 2 n

def leastExponent : Int := -1074

def zero : Binary64 := ⟨0, leastExponent⟩

def roundedAt (numerator denominator : Nat) (exponent : Int) : Nat :=
  roundHalfEven (numerator * twoTo (-exponent).toNat) (denominator * twoTo exponent.toNat)

def exponentFor (numerator denominator : Nat) : Int :=
  let guess : Int := (numerator.log2 : Int) - denominator.log2 - 53
  let large := denominator * twoTo (guess + 53).toNat ≤ numerator * twoTo (-(guess + 53)).toNat
  let exponent := if large then guess + 1 else guess
  if exponent < leastExponent then leastExponent else exponent

def nearest? (numerator denominator : Nat) : Option Binary64 :=
  let exponent := exponentFor numerator denominator
  let rounded := roundedAt numerator denominator exponent
  let result : Binary64 :=
    if rounded = twoTo 53 then ⟨twoTo 52, exponent + 1⟩ else ⟨rounded, exponent⟩
  if 971 < result.exponent then none else some result

def ratio (a : Binary64) : Nat × Nat :=
  (a.significand * twoTo a.exponent.toNat, twoTo (-a.exponent).toNat)

def times? (a b : Binary64) : Option Binary64 :=
  nearest? (a.ratio.1 * b.ratio.1) (a.ratio.2 * b.ratio.2)

def over? (a b : Binary64) : Option Binary64 :=
  nearest? (a.ratio.1 * b.ratio.2) (a.ratio.2 * b.ratio.1)

/-- Multiplies by a power of ten that is itself rounded, as one step for an
exponent of up to 308 in size and as two below that. -/
def scaleByTen? (a : Binary64) (exponent : Int) : Option Binary64 := do
  if a.significand = 0 then return zero
  else if 308 < exponent then none
  else if 0 ≤ exponent then a.times? (← nearest? (tenTo exponent.toNat) 1)
  else if -308 ≤ exponent then a.over? (← nearest? (tenTo (-exponent).toNat) 1)
  else if -616 ≤ exponent then
    let lower ← a.over? (← nearest? (tenTo 308) 1)
    lower.over? (← nearest? (tenTo (-exponent - 308).toNat) 1)
  else return zero

structure Shortest where
  digits : Nat
  exponent : Int
  deriving DecidableEq

def magnitude (a : Binary64) : Int :=
  let (numerator, denominator) := a.ratio
  if denominator ≤ numerator then (digits (numerator / denominator)).length
  else 1 - (digits ((denominator - 1) / numerator)).length

def readsBack (a : Binary64) (candidate : Shortest) : Bool :=
  let left := candidate.digits * tenTo candidate.exponent.toNat * twoTo (2 - a.exponent).toNat
  let unit := tenTo (-candidate.exponent).toNat * twoTo (a.exponent - 2).toNat
  let lower := if a.significand = twoTo 52 ∧ a.exponent ≠ leastExponent then 1 else 2
  let low := (4 * a.significand - lower) * unit
  let high := (4 * a.significand + 2) * unit
  if a.significand % 2 = 0 then low ≤ left ∧ left ≤ high else low < left ∧ left < high

/-- Which of two equally near decimals counts as the nearer. -/
inductive Tie where
  | larger
  | even
  deriving DecidableEq

/-- The number with `count` digits that reads back as `a`, the nearer of two. -/
def withDigits (a : Binary64) (tie : Tie) (count : Nat) : Option Shortest :=
  let exponent := a.magnitude - count
  let numerator := a.ratio.1 * tenTo (-exponent).toNat
  let denominator := a.ratio.2 * tenTo exponent.toNat
  let floor := numerator / denominator
  let below : Shortest := ⟨floor, exponent⟩
  let above : Shortest :=
    if floor + 1 = tenTo count then ⟨tenTo (count - 1), exponent + 1⟩ else ⟨floor + 1, exponent⟩
  match a.readsBack below, a.readsBack above with
  | true, true =>
    let twice := 2 * (numerator % denominator)
    if twice < denominator || (twice = denominator && tie = .even && floor % 2 = 0) then some below
    else some above
  | true, false => some below
  | false, true => some above
  | false, false => none

def shortest (a : Binary64) (tie : Tie) : Shortest :=
  if a.significand = 0 then ⟨0, 0⟩
  else ((List.range 17).findSome? fun spare => a.withDigits tie (spare + 1)).getD ⟨0, 0⟩

def Shortest.plain (number : Shortest) : List Char :=
  if 0 ≤ number.exponent then numeral (number.digits * tenTo number.exponent.toNat)
  else
    let places := (-number.exponent).toNat
    numeral (number.digits / tenTo places) ++ '.' ::
      (lastDigits places number.digits).map digitChar

end Binary64

end SpotExchange
