import SpotExchange.Decimal.Basic

/-!
Sums, differences, products and quotients of decimals. A result that needs more
than 96 bits or 28 places is rounded, half to even, to the most places that fit;
an operation overflows when not even its whole part fits.
-/

namespace SpotExchange

inductive Overflow where
  | addition
  | subtraction
  | multiplication
  | division
  deriving DecidableEq, Repr

def Overflow.message : Overflow → String
  | .addition => "Addition overflowed"
  | .subtraction => "Subtraction overflowed"
  | .multiplication => "Multiplication overflowed"
  | .division => "Division overflowed"

def roundHalfEven (n d : Nat) : Nat :=
  if d < 2 * (n % d) ∨ (2 * (n % d) = d ∧ n / d % 2 = 1) then n / d + 1 else n / d

def roundQuotient (value : Int) (divisor : Nat) : Int :=
  value.sign * roundHalfEven value.natAbs divisor

namespace Decimal

/-- `value / divisor` at `places` places, or at the most places below that fit. -/
def nearest (value : Int) (divisor : Nat) : Nat → Option Decimal
  | 0 => ofParts? (roundQuotient value divisor) 0
  | places + 1 =>
    (ofParts? (roundQuotient (value * tenTo (places + 1)) divisor) (places + 1)).or
      (nearest value divisor places)

def fit (value : Int) (scale : Nat) : Option Decimal :=
  nearest value (tenTo scale) (if scale ≤ 28 then scale else 28)

def orOverflow (cause : Overflow) : Option Decimal → Except Overflow Decimal
  | some result => .ok result
  | none => .error cause

def add (a b : Decimal) : Except Overflow Decimal :=
  -- a zero leaves the other number as it is written, whatever places the zero has
  if a.coefficient = 0 then .ok b
  else if b.coefficient = 0 then .ok a
  else
    let scale := if a.scale ≤ b.scale then b.scale else a.scale
    orOverflow .addition
      (fit (a.coefficient * tenTo (scale - a.scale) + b.coefficient * tenTo (scale - b.scale))
        scale)

def sub (a b : Decimal) : Except Overflow Decimal :=
  if a.coefficient = 0 then .ok b.negate
  else if b.coefficient = 0 then .ok a
  else
    let scale := if a.scale ≤ b.scale then b.scale else a.scale
    orOverflow .subtraction
      (fit (a.coefficient * tenTo (scale - a.scale) - b.coefficient * tenTo (scale - b.scale))
        scale)

/-- The product. Of two coefficients below 32 bits with more than 47 places
between them nothing is left. -/
def mul (a b : Decimal) : Except Overflow Decimal :=
  if a.coefficient = 0 ∨ b.coefficient = 0 then .ok 0
  else if a.coefficient.natAbs < 4294967296 ∧ b.coefficient.natAbs < 4294967296 ∧
      47 < a.scale + b.scale then .ok 0
  else orOverflow .multiplication (fit (a.coefficient * b.coefficient) (a.scale + b.scale))

/-- Drops the last `count` places when they hold zeros. Eight places go only
together with 32 zero bits. -/
def dropZeros (a : Decimal) (count : Nat) : Decimal :=
  if count ≤ a.scale ∧ a.coefficient.tmod (tenTo count) = 0 ∧
      (count = 8 → a.coefficient.tmod 4294967296 = 0) then
    a.truncate (a.scale - count)
  else a

def dropQuotientZeros (a : Decimal) : Decimal :=
  [8, 8, 8, 4, 2, 1].foldl dropZeros a

/-- Digits beyond the whole quotient of the coefficients come in groups of nine;
after how many of them the division of `a` by `b` leaves no remainder. -/
def exactAfter (a b : Decimal) : Option Nat :=
  [0, 9, 18, 27, 36, 45, 54].find? fun digits =>
    (a.coefficient * tenTo digits).tmod b.coefficient = 0

/-- The quotient, for a divisor other than zero. One that ends is written with
the digits of its last group, any other with the most places that fit; then
zeros at its end go. -/
def div (a b : Decimal) : Except Overflow Decimal :=
  if a.coefficient = 0 then .ok 0
  else do
    let quotient ← orOverflow .division
      (nearest (a.coefficient * b.coefficient.sign * tenTo b.scale)
        (b.coefficient.natAbs * tenTo a.scale) 28)
    match exactAfter a b with
    | some 0 => return quotient.truncate (a.scale - b.scale)
    | some digits => return (quotient.truncate (a.scale + digits - b.scale)).dropQuotientZeros
    | none => return quotient.dropQuotientZeros

def sum (values : List Decimal) : Except Overflow Decimal :=
  values.foldlM add 0

end Decimal

end SpotExchange
