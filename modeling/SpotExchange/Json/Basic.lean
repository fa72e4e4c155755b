import SpotExchange.Binary64

/-!
JSON values. Objects keep every member in the order it was written, repeated
names included; what a repeated name means is for the reader of the object.
-/

namespace SpotExchange

/-- A number: whole ones within 64 bits are exact, all others are rounded. -/
inductive Number where
  | natural (value : Nat)
  | negative (size : Nat)
  | double (negative : Bool) (size : Binary64)
  deriving DecidableEq

/-- A JSON value. A literal without a value is `unreadable`: a string with half
a surrogate pair or with bytes that are no text, an object with such a name, a
number beyond every double. -/
inductive Json where
  | null
  | bool (value : Bool)
  | number (value : Number)
  | string (value : String)
  | array (items : List Json)
  | object (members : List (String × Json))
  | unreadable

namespace Json

def ofNat (n : Nat) : Json := .number (.natural n)

def ofOption (encode : α → Json) : Option α → Json
  | some value => encode value
  | none => .null

mutual

def depth : Json → Nat
  | .array items => depthOfItems items + 1
  | .object members => depthOfMembers members + 1
  | _ => 0

def depthOfItems : List Json → Nat
  | [] => 0
  | item :: rest =>
    let first := item.depth
    let others := depthOfItems rest
    if first ≤ others then others else first

def depthOfMembers : List (String × Json) → Nat
  | [] => 0
  | (_, value) :: rest =>
    let first := value.depth
    let others := depthOfMembers rest
    if first ≤ others then others else first

end

mutual

def readable : Json → Bool
  | .array items => readableItems items
  | .object members => readableMembers members
  | .unreadable => false
  | _ => true

def readableItems : List Json → Bool
  | [] => true
  | item :: rest => item.readable && readableItems rest

def readableMembers : List (String × Json) → Bool
  | [] => true
  | (_, value) :: rest => value.readable && readableMembers rest

end

/-- A tree that can be kept whole: readable and less than 128 levels deep. -/
def sound (value : Json) : Bool := value.readable && value.depth < 128

end Json

end SpotExchange
