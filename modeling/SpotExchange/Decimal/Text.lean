import SpotExchange.Digits
import SpotExchange.Decimal.Basic

/-!
The text of decimals. Writing shows every place a number has; reading accepts a
sign, one point, underscores after the first digit, and an exponent.
-/

namespace SpotExchange.Decimal

def toText (a : Decimal) : String :=
  let size := a.coefficient.natAbs
  let sign := if a.coefficient < 0 then ['-'] else []
  let point := if a.scale = 0 then [] else '.' :: (lastDigits a.scale size).map digitChar
  String.ofList (sign ++ numeral (size / tenTo a.scale) ++ point)

def takeSign : List Char → Bool × List Char
  | '-' :: rest => (true, rest)
  | '+' :: rest => (false, rest)
  | rest => (false, rest)

/-- Digits with underscores between or after them, which are skipped. -/
def groupedDigits? : List Char → Option (List Nat)
  | [] => some []
  | c :: rest => do
    let digits ← groupedDigits? rest
    if c = '_' then return digits else return (← digitValue? c) :: digits

def roundAt (size scale digit : Nat) : Option (Nat × Nat) :=
  if digit < 5 then some (size, scale)
  else if size + 1 < bound then some (size + 1, scale)
  else if scale = 0 then none
  else some ((size + 5) / 10, scale - 1)

/-- Below this a number surely stays within 64 bits when a digit is appended. -/
def smallSize : Nat := 1844674407370954906

/-- Appends the digits after the point, as many as fit; the next one rounds. Between
them underscores are skipped. Only when all places are taken, the last of them within
64 bits, an underscore counts as a zero that rounds. -/
def appendFraction (size scale : Nat) : List Char → Option (Nat × Nat)
  | [] => some (size, scale)
  | c :: rest =>
    match digitValue? c with
    | some digit =>
      if scale = 28 ∨ bound ≤ size * 10 + digit then roundAt size scale digit
      else appendFraction (size * 10 + digit) (scale + 1) rest
    | none =>
      if scale = 28 ∧ size / 10 < smallSize then some (size, scale)
      else appendFraction size scale rest

def ofPlain? (text : List Char) : Option Decimal := do
  let (negative, unsigned) := takeSign text
  let whole := unsigned.takeWhile (· ≠ '.')
  let fraction := (unsigned.dropWhile (· ≠ '.')).drop 1
  let _ ← (whole ++ fraction).head?.bind digitValue?
  let size := ofDigits (← groupedDigits? whole)
  let _ ← groupedDigits? fraction
  if bound ≤ size then none
  else
    let (size, scale) ← appendFraction size 0 fraction
    ofParts? (if negative then -(size : Int) else size) scale

def raise? (a : Decimal) (count : Nat) : Option Decimal :=
  if count ≤ a.scale then ofParts? a.coefficient (a.scale - count)
  else ofParts? (a.coefficient * tenTo (count - a.scale)) 0

def ofUnsigned? : List Char → Option Nat
  | '+' :: rest => (digitsOf? rest).map ofDigits
  | rest => (digitsOf? rest).map ofDigits

def ofScientific? (text : List Char) : Option Decimal := do
  let base ← ofPlain? (text.takeWhile fun c => c ≠ 'e' ∧ c ≠ 'E')
  match (text.dropWhile fun c => c ≠ 'e' ∧ c ≠ 'E').drop 1 with
  | '-' :: exponent => ofParts? base.coefficient (base.scale + (← ofUnsigned? exponent))
  | exponent =>
    let count ← ofUnsigned? exponent
    if 28 < count then none else base.raise? count

def ofText? (text : String) : Option Decimal :=
  (ofPlain? text.toList).or (ofScientific? text.toList)

end SpotExchange.Decimal
