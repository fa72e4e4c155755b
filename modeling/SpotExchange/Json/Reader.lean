import SpotExchange.Json.Basic

/-!
Reading JSON text. The text is one value between blanks. Strings hold no control
characters, numbers no needless zero, and nothing may follow a last comma.
-/

namespace SpotExchange.Json

def isBlank (c : Char) : Bool := c = ' ' || c = '\n' || c = '\t' || c = '\r'

def skipBlanks (text : List Char) : List Char := text.dropWhile isBlank

inductive Piece where
  | char (value : Char)
  | unit (value : Nat)

def escaped? : Char → Option Char
  | '"' => some '"'
  | '\\' => some '\\'
  | '/' => some '/'
  | 'b' => some '\x08'
  | 'f' => some '\x0c'
  | 'n' => some '\n'
  | 'r' => some '\r'
  | 't' => some '\t'
  | _ => none

def hexValue? (c : Char) : Option Nat :=
  if 48 ≤ c.toNat ∧ c.toNat ≤ 57 then some (c.toNat - 48)
  else if 97 ≤ c.toNat ∧ c.toNat ≤ 102 then some (c.toNat - 87)
  else if 65 ≤ c.toNat ∧ c.toNat ≤ 70 then some (c.toNat - 55)
  else none

def hexadecimal? (text : List Char) : Option Nat :=
  text.foldlM (fun sum c => (hexValue? c).map (sum * 16 + ·)) 0

def readPieces : List Char → Option (List Piece × List Char)
  | '"' :: rest => some ([], rest)
  | '\\' :: 'u' :: a :: b :: c :: d :: rest => do
    let value ← hexadecimal? [a, b, c, d]
    let (pieces, rest) ← readPieces rest
    return (.unit value :: pieces, rest)
  | '\\' :: c :: rest => do
    let value ← escaped? c
    let (pieces, rest) ← readPieces rest
    return (.char value :: pieces, rest)
  | c :: rest =>
    if c.toNat < 32 then none
    else do
      let (pieces, rest) ← readPieces rest
      return (.char c :: pieces, rest)
  | [] => none

/-- The characters of a string. Units from `d800` to `dfff` count in pairs; one
that stands alone is no character. -/
def joinPieces : List Piece → Option (List Char)
  | [] => some []
  | .char c :: rest => (joinPieces rest).map (c :: ·)
  | .unit high :: rest =>
    if high < 55296 ∨ 57343 < high then (joinPieces rest).map (Char.ofNat high :: ·)
    else
      match rest with
      | .unit low :: rest =>
        if high < 56320 ∧ 56320 ≤ low ∧ low ≤ 57343 then
          (joinPieces rest).map (Char.ofNat (65536 + (high - 55296) * 1024 + (low - 56320)) :: ·)
        else none
      | _ => none

def readString (text : List Char) : Option (Option String × List Char) := do
  let (pieces, rest) ← readPieces text
  return ((joinPieces pieces).map String.ofList, rest)

def takeDigits (text : List Char) : List Nat :=
  (text.takeWhile fun c => (digitValue? c).isSome).filterMap digitValue?

def dropDigits (text : List Char) : List Char :=
  text.dropWhile fun c => (digitValue? c).isSome

structure Numeral where
  negative : Bool
  whole : List Nat
  fraction : Option (List Nat)
  exponent : Option Int

def appendWithin64 (value : Nat) : List Nat → Nat × Nat
  | [] => (value, 0)
  | digit :: rest =>
    if value * 10 + digit ≤ 18446744073709551615 then
      let (result, count) := appendWithin64 (value * 10 + digit) rest
      (result, count + 1)
    else (value, 0)

/-- The value of a number: the digits within 64 bits as a double, scaled by the
power of ten that the others and the exponent leave. -/
def Numeral.value? (numeral : Numeral) : Option Number :=
  let (whole, kept) := appendWithin64 0 numeral.whole
  let dropped : Int := numeral.whole.length - kept
  let isWhole := numeral.fraction.isNone && numeral.exponent.isNone && dropped = 0
  if isWhole && !numeral.negative then some (.natural whole)
  else if isWhole && 0 < whole && whole ≤ 9223372036854775808 then some (.negative whole)
  else do
    let (significand, places) := appendWithin64 whole (numeral.fraction.getD [])
    let size ← Binary64.nearest? significand 1
    let size ← size.scaleByTen? (dropped - places + numeral.exponent.getD 0)
    return .double numeral.negative size

def readFraction : List Char → Option (Option (List Nat) × List Char)
  | '.' :: rest =>
    match takeDigits rest with
    | [] => none
    | fraction => some (some fraction, dropDigits rest)
  | rest => some (none, rest)

def readExponentDigits (negative : Bool) (text : List Char) : Option (Option Int × List Char) :=
  match takeDigits text with
  | [] => none
  | digits =>
    let size : Int := ofDigits digits
    some (some (if negative then -size else size), dropDigits text)

def readExponent : List Char → Option (Option Int × List Char)
  | c :: rest =>
    if c = 'e' || c = 'E' then
      match rest with
      | '-' :: digits => readExponentDigits true digits
      | '+' :: digits => readExponentDigits false digits
      | digits => readExponentDigits false digits
    else some (none, c :: rest)
  | [] => some (none, [])

def readNumeral (text : List Char) : Option (Numeral × List Char) := do
  let (negative, unsigned) := match text with
    | '-' :: rest => (true, rest)
    | rest => (false, rest)
  let whole := takeDigits unsigned
  if whole = [] ∨ (whole.head? = some 0 ∧ whole.length ≠ 1) then none
  else
    let (fraction, rest) ← readFraction (dropDigits unsigned)
    let (exponent, rest) ← readExponent rest
    return (⟨negative, whole, fraction, exponent⟩, rest)

def readScalar : List Char → Option (Json × List Char)
  | 'n' :: 'u' :: 'l' :: 'l' :: rest => some (.null, rest)
  | 't' :: 'r' :: 'u' :: 'e' :: rest => some (.bool true, rest)
  | 'f' :: 'a' :: 'l' :: 's' :: 'e' :: rest => some (.bool false, rest)
  | text => do
    let (numeral, rest) ← readNumeral text
    return ((numeral.value?.map Json.number).getD .unreadable, rest)

def ofMembers (members : List (Option String × Json)) : Json :=
  match members.mapM fun (name, value) => name.map (·, value) with
  | some members => .object members
  | none => .unreadable

mutual

/-- Reads a value. Every step takes a character or goes from a list to its next
entry, so twice as much fuel as there are characters is enough. -/
def readValue : Nat → List Char → Option (Json × List Char)
  | 0, _ => none
  | fuel + 1, text =>
    match skipBlanks text with
    | '"' :: rest => do
      let (value, rest) ← readString rest
      return ((value.map Json.string).getD .unreadable, rest)
    | '[' :: rest =>
      match skipBlanks rest with
      | ']' :: rest => some (.array [], rest)
      | rest => do
        let (items, rest) ← readItems fuel rest
        return (.array items, rest)
    | '{' :: rest =>
      match skipBlanks rest with
      | '}' :: rest => some (.object [], rest)
      | rest => do
        let (members, rest) ← readMembers fuel rest
        return (ofMembers members, rest)
    | rest => readScalar rest

def readItems : Nat → List Char → Option (List Json × List Char)
  | 0, _ => none
  | fuel + 1, text => do
    let (item, rest) ← readValue fuel text
    match skipBlanks rest with
    | ',' :: rest => do
      let (items, rest) ← readItems fuel rest
      return (item :: items, rest)
    | ']' :: rest => some ([item], rest)
    | _ => none

def readMembers : Nat → List Char → Option (List (Option String × Json) × List Char)
  | 0, _ => none
  | fuel + 1, text =>
    match skipBlanks text with
    | '"' :: rest => do
      let (name, rest) ← readString rest
      match skipBlanks rest with
      | ':' :: rest => do
        let (value, rest) ← readValue fuel rest
        match skipBlanks rest with
        | ',' :: rest => do
          let (members, rest) ← readMembers fuel rest
          return ((name, value) :: members, rest)
        | '}' :: rest => some ([(name, value)], rest)
        | _ => none
      | _ => none
    | _ => none

end

def ofText? (text : List Char) : Option Json := do
  let (value, rest) ← readValue (2 * text.length + 2) text
  if skipBlanks rest = [] then return value else none

/-- What stands for bytes that are not UTF-8: a character that is no part of any token
outside strings, and half a surrogate pair, which leaves a string without a value. -/
def illFormed : List Char := ['\ufffd', '\\', 'u', 'd', 'c', '0', '0']

def charsOfBytes (bytes : ByteArray) : List Char :=
  let runs := bytes.toList.splitBy fun a b => (a < 128) = (b < 128)
  runs.flatMap fun run =>
    ((String.fromUTF8? ⟨run.toArray⟩).map String.toList).getD illFormed

def ofBytes? (bytes : ByteArray) : Option Json := ofText? (charsOfBytes bytes)

end SpotExchange.Json
