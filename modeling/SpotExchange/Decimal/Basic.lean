import SpotExchange.Digits

/-!
Decimal numbers of at most 96 bits and 28 places. A number keeps the places it
was written with, so `1.5` and `1.50` are two numbers; order and `≈` look at
the value alone.
-/

namespace SpotExchange

/-- Two to the power 96: every coefficient is smaller in size. -/
def Decimal.bound : Nat := 79228162514264337593543950336

/-- The number `coefficient / 10 ^ scale`. Zero carries no sign. -/
structure Decimal where
  coefficient : Int
  scale : Nat
  coefficient_lt : coefficient.natAbs < Decimal.bound
  scale_le : scale ≤ 28
  deriving DecidableEq

namespace Decimal

def ofParts? (coefficient : Int) (scale : Nat) : Option Decimal :=
  if within : coefficient.natAbs < bound ∧ scale ≤ 28 then
    some ⟨coefficient, scale, within.1, within.2⟩
  else none

instance : Zero Decimal := ⟨⟨0, 0, by decide, by decide⟩⟩

instance : Inhabited Decimal := ⟨0⟩

/-- The coefficient that `a` would have beside the places of `b`. -/
def crossed (a b : Decimal) : Int := a.coefficient * tenTo b.scale

instance : LE Decimal := ⟨fun a b => crossed a b ≤ crossed b a⟩

instance : LT Decimal := ⟨fun a b => crossed a b < crossed b a⟩

instance : HasEquiv Decimal := ⟨fun a b => crossed a b = crossed b a⟩

instance (a b : Decimal) : Decidable (a ≤ b) :=
  inferInstanceAs (Decidable (crossed a b ≤ crossed b a))

instance (a b : Decimal) : Decidable (a < b) :=
  inferInstanceAs (Decidable (crossed a b < crossed b a))

instance (a b : Decimal) : Decidable (a ≈ b) :=
  inferInstanceAs (Decidable (crossed a b = crossed b a))

def min (a b : Decimal) : Decimal := if b < a then b else a

def max (a b : Decimal) : Decimal := if a < b then b else a

theorem natAbs_tdiv_le (value : Int) (divisor : Nat) :
    (value.tdiv divisor).natAbs ≤ value.natAbs := by
  rw [Int.natAbs_tdiv]
  exact Nat.div_le_self _ _

def truncate (a : Decimal) (places : Nat) : Decimal :=
  if fewer : a.scale ≤ places then a
  else
    ⟨a.coefficient.tdiv (tenTo (a.scale - places)), places,
      Nat.lt_of_le_of_lt (natAbs_tdiv_le _ _) a.coefficient_lt,
      Nat.le_trans (Nat.le_of_lt (Nat.lt_of_not_le fewer)) a.scale_le⟩

def negate (a : Decimal) : Decimal :=
  ⟨-a.coefficient, a.scale, by rw [Int.natAbs_neg]; exact a.coefficient_lt, a.scale_le⟩

end Decimal

end SpotExchange
