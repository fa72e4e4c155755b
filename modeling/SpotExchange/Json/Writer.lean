import SpotExchange.Json.Basic

/-!
Writing JSON text without blanks. Only quotes, backslashes and control
characters are escaped.
-/

namespace SpotExchange

def hexChar (digit : Nat) : Char := Char.ofNat (if digit < 10 then 48 + digit else 87 + digit)

namespace Json

def writeChar (c : Char) : List Char :=
  match c with
  | '"' => ['\\', '"']
  | '\\' => ['\\', '\\']
  | '\x08' => ['\\', 'b']
  | '\x0c' => ['\\', 'f']
  | '\n' => ['\\', 'n']
  | '\r' => ['\\', 'r']
  | '\t' => ['\\', 't']
  | c =>
    if c.toNat < 32 then
      ['\\', 'u', '0', '0', hexChar (c.toNat / 16), hexChar (c.toNat % 16)]
    else [c]

def writeString (value : String) : List Char :=
  '"' :: value.toList.flatMap writeChar ++ ['"']

def writeInt (value : Int) : List Char :=
  if value < 0 then '-' :: numeral value.natAbs else numeral value.natAbs

/-- A double in the fewest digits, a tie going to the even one: positional from
`0.00001` up to sixteen digits before the point, always with a digit behind it, and
with an exponent beyond. -/
def writeDouble (size : Binary64) : List Char :=
  let short := size.shortest .even
  let digits := numeral short.digits
  let point := short.exponent + digits.length
  if 0 ≤ short.exponent ∧ point ≤ 16 then short.plain ++ ['.', '0']
  else if -5 < point ∧ point ≤ 16 then short.plain
  else
    digits.take 1 ++ (if digits.length = 1 then [] else '.' :: digits.drop 1) ++
      'e' :: writeInt (point - 1)

def writeNumber : Number → List Char
  | .natural value => numeral value
  | .negative size => '-' :: numeral size
  | .double true size => '-' :: writeDouble size
  | .double false size => writeDouble size

mutual

def write : Json → List Char
  | .null => ['n', 'u', 'l', 'l']
  | .bool true => ['t', 'r', 'u', 'e']
  | .bool false => ['f', 'a', 'l', 's', 'e']
  | .number value => writeNumber value
  | .string value => writeString value
  | .array items => '[' :: writeItems items ++ [']']
  | .object members => '{' :: writeMembers members ++ ['}']
  | .unreadable => ['n', 'u', 'l', 'l']

def writeItems : List Json → List Char
  | [] => []
  | [item] => item.write
  | item :: rest => item.write ++ ',' :: writeItems rest

def writeMembers : List (String × Json) → List Char
  | [] => []
  | [(name, value)] => writeString name ++ ':' :: value.write
  | (name, value) :: rest => writeString name ++ ':' :: value.write ++ ',' :: writeMembers rest

end

def toText (value : Json) : String := String.ofList value.write

end Json

end SpotExchange
