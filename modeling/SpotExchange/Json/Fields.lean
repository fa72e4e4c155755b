import SpotExchange.Json.Basic

/-!
Decoding records and choices from JSON. A record is an object, whose unknown
members are ignored and whose known ones may not repeat, or an array of its
fields in order. A choice is its name, or an object with that name alone.
-/

namespace SpotExchange.Json

/-- Decoding straight from a text passes over what it does not need; a tree has
been read in full before. -/
inductive Source where
  | text
  | tree
  deriving DecidableEq

def member? (name : String) (members : List (String × Json)) : Option (Option Json) :=
  match members.filter fun entry => entry.1 = name with
  | [] => some none
  | [(_, value)] => some (some value)
  | _ => none

/-- What a record holds for each of its fields, or none if it is no record. -/
def slots? (names : List String) : Json → Option (List (Option Json))
  | .object members => names.mapM fun name => member? name members
  | .array items =>
    if items.length ≤ names.length then
      some (items.map some ++ List.replicate (names.length - items.length) none)
    else none
  | _ => none

def required (slot : Option Json) (decode : Json → Option α) : Option α := slot.bind decode

def optional (slot : Option Json) (fallback : α) (decode : Json → Option α) : Option α :=
  match slot with
  | some value => decode value
  | none => some fallback

def text? : Json → Option String
  | .string value => some value
  | _ => none

def bool? : Json → Option Bool
  | .bool value => some value
  | _ => none

def natural? (largest : Nat) : Json → Option Nat
  | .number (.natural value) => if value ≤ largest then some value else none
  | _ => none

def list? (decode : Json → Option α) : Json → Option (List α)
  | .array items => items.mapM decode
  | _ => none

def isNothing (source : Source) : Json → Bool
  | .null => true
  | .object [] => source = .tree
  | _ => false

def choiceName? (source : Source) : Json → Option String
  | .string name => some name
  | .object [(name, value)] => if isNothing source value then some name else none
  | _ => none

def choice? (source : Source) (choices : List (String × α)) (value : Json) : Option α := do
  choices.lookup (← choiceName? source value)

end SpotExchange.Json
