/-!
Decimal digits of natural numbers: the shortest list, a list of a given length,
and the number that a list stands for.
-/

namespace SpotExchange

def tenTo (n : Nat) : Nat := Nat.pow 10 n

theorem tenTo_pos (n : Nat) : 0 < tenTo n := Nat.pow_pos (by decide)

theorem tenTo_add (m n : Nat) : tenTo (m + n) = tenTo m * tenTo n := Nat.pow_add 10 m n

/-- The number whose digits are appended to those of `value`. -/
def appendDigits (value : Nat) (digits : List Nat) : Nat :=
  digits.foldl (fun sum digit => sum * 10 + digit) value

def ofDigits (digits : List Nat) : Nat := appendDigits 0 digits

/-- The digits of a number without leading zeros; zero has one digit. -/
def digits (n : Nat) : List Nat :=
  if n < 10 then [n] else digits (n / 10) ++ [n % 10]

def lastDigits : Nat → Nat → List Nat
  | 0, _ => []
  | count + 1, n => lastDigits count (n / 10) ++ [n % 10]

def digitChar (digit : Nat) : Char := Char.ofNat (48 + digit)

def digitValue? (c : Char) : Option Nat :=
  if 48 ≤ c.toNat ∧ c.toNat ≤ 57 then some (c.toNat - 48) else none

def digitsOf? : List Char → Option (List Nat)
  | [] => none
  | first :: rest => (first :: rest).mapM digitValue?

def numeral (n : Nat) : List Char := (digits n).map digitChar

end SpotExchange
