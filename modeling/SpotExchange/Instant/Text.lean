import SpotExchange.Blank
import SpotExchange.Digits
import SpotExchange.Instant.Basic

/-!
Instants as RFC 3339 text. Reading takes any offset from UTC, and is lenient:
blanks may stand between the parts, numbers may lack leading zeros, and a year
may have a sign. Writing uses UTC and no more fraction digits than it needs, in
groups of three.
-/

namespace SpotExchange.Instant

def skipBlanks (text : List Char) : List Char := text.dropWhile isBlankChar

def takeOneOf? (choices : List Char) : List Char → Option (List Char)
  | c :: rest => if c ∈ choices then some rest else none
  | [] => none

def leadingDigits (limit : Nat) (text : List Char) : List Nat :=
  ((text.take limit).takeWhile fun c => (digitValue? c).isSome).filterMap digitValue?

def takeNumber? (limit : Nat) (text : List Char) : Option (Nat × List Char) :=
  match leadingDigits limit text with
  | [] => none
  | digits => some (ofDigits digits, text.drop digits.length)

def takePair? (text : List Char) : Option (Nat × List Char) :=
  match leadingDigits 2 text with
  | [tens, ones] => some (ofDigits [tens, ones], text.drop 2)
  | _ => none

/-- Reads a year behind blanks: up to four digits, or any number behind a sign. -/
def takeYear? (text : List Char) : Option (Int × List Char) :=
  match skipBlanks text with
  | '-' :: rest => (takeNumber? rest.length rest).map fun (year, rest) => (-(year : Int), rest)
  | '+' :: rest => (takeNumber? rest.length rest).map fun (year, rest) => ((year : Int), rest)
  | rest => (takeNumber? 4 rest).map fun (year, rest) => ((year : Int), rest)

def takePart? (text : List Char) : Option (Nat × List Char) := takeNumber? 2 (skipBlanks text)

def takeNext? (separator : Char) (text : List Char) : Option (Nat × List Char) := do
  takePart? (← takeOneOf? [separator] (skipBlanks text))

def nanosOf (fraction : List Nat) : Nat :=
  ofDigits ((fraction ++ List.replicate 9 0).take 9)

def takeFraction? : List Char → Option (Nat × List Char)
  | '.' :: rest =>
    match leadingDigits rest.length rest with
    | [] => none
    | fraction => some (nanosOf fraction, rest.drop fraction.length)
  | rest => some (0, rest)

/-- Reads the distance from UTC in seconds, less than a day. Colons and blanks may
stand between hours and minutes. -/
def takeOffset? : List Char → Option (Int × List Char)
  | 'Z' :: rest => some (0, rest)
  | 'z' :: rest => some (0, rest)
  | sign :: rest =>
    if sign ∈ ['U', 'u'] then do
      let rest ← takeOneOf? ['T', 't'] rest
      return (0, ← takeOneOf? ['C', 'c'] rest)
    else do
      let _ ← takeOneOf? ['+', '-', '\u2212'] [sign]
      let (hours, rest) ← takePair? rest
      let (minutes, rest) ← takePair? (rest.dropWhile fun c => c = ':' || isBlankChar c)
      let size : Int := hours * 3600 + minutes * 60
      if hours < 24 ∧ minutes < 60 then return (if sign = '+' then size else -size, rest)
      else none
  | [] => none

def ofText? (text : String) : Option Instant := do
  let (year, rest) ← takeYear? text.toList
  let (month, rest) ← takeNext? '-' rest
  let (day, rest) ← takeNext? '-' rest
  let (hour, rest) ← takePart? (← takeOneOf? ['T', 't', ' '] rest)
  let (minute, rest) ← takeNext? ':' rest
  let (second, rest) ← takeNext? ':' rest
  let (nanos, rest) ← takeFraction? rest
  let (offset, rest) ← takeOffset? (skipBlanks rest)
  let date : Date := ⟨year, month, day⟩
  let leap := if second = 60 then 1 else 0
  let instant : Instant :=
    { seconds := date.toDays * 86400 + hour * 3600 + minute * 60 + (second - leap : Nat) - offset
      nanos := nanos + leap * 1000000000 }
  if date.valid ∧ date.inRange ∧ hour < 24 ∧ minute < 60 ∧ second ≤ 60 ∧
      instant.date.inRange ∧ skipBlanks rest = [] then
    return instant
  else none

def padded (width n : Nat) : List Char :=
  if n < tenTo width then (lastDigits width n).map digitChar else numeral n

def yearText (year : Int) : List Char :=
  if year < 0 then '-' :: padded 4 year.natAbs
  else if 9999 < year then '+' :: padded 4 year.natAbs
  else padded 4 year.natAbs

/-- A point and the fewest of three, six or nine digits that lose nothing. -/
def fractionText (nanos : Nat) : List Char :=
  if nanos = 0 then []
  else if nanos % 1000000 = 0 then '.' :: padded 3 (nanos / 1000000)
  else if nanos % 1000 = 0 then '.' :: padded 6 (nanos / 1000)
  else '.' :: padded 9 nanos

def toText (instant : Instant) : String :=
  let date := instant.date
  let clock := (instant.seconds % 86400).toNat
  let leap := instant.nanos / 1000000000
  String.ofList (
    yearText date.year ++ '-' :: padded 2 date.month ++ '-' :: padded 2 date.day ++
    'T' :: padded 2 (clock / 3600) ++ ':' :: padded 2 (clock / 60 % 60) ++
    ':' :: padded 2 (clock % 60 + leap) ++ fractionText (instant.nanos % 1000000000) ++ ['Z'])

end SpotExchange.Instant
