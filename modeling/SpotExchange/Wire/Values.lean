import SpotExchange.Decimal.Text
import SpotExchange.Instant.Text
import SpotExchange.Json.Fields
import SpotExchange.Order

/-!
The JSON forms of sides, kinds, statuses, decimals and instants. Decimals are
written as strings, so that no place is lost, and read from numbers as well.
-/

namespace SpotExchange

open Json (Source)

def Side.name : Side → String
  | .buy => "buy"
  | .sell => "sell"

def Side.toJson (side : Side) : Json := .string side.name

def Side.ofJson? (source : Source) (value : Json) : Option Side :=
  Json.choice? source [("buy", .buy), ("sell", .sell)] value

def OrderKind.name : OrderKind → String
  | .limit => "limit"
  | .market => "market"

def OrderKind.toJson (kind : OrderKind) : Json := .string kind.name

def OrderKind.ofJson? (source : Source) (value : Json) : Option OrderKind :=
  Json.choice? source [("limit", .limit), ("market", .market)] value

def OrderStatus.name : OrderStatus → String
  | .opened => "open"
  | .partiallyFilled => "partially_filled"
  | .filled => "filled"
  | .cancelled => "cancelled"

def OrderStatus.toJson (status : OrderStatus) : Json := .string status.name

def OrderStatus.ofJson? (source : Source) (value : Json) : Option OrderStatus :=
  Json.choice? source
    [("open", .opened), ("partially_filled", .partiallyFilled), ("filled", .filled),
      ("cancelled", .cancelled)] value

namespace Decimal

def toJson (value : Decimal) : Json := .string value.toText

/-- Reads a number: a whole one as it is, any other by its shortest text, the larger
one in a tie. -/
def ofNumber? : Number → Option Decimal
  | .natural value => ofParts? value 0
  | .negative size => ofParts? (-(size : Int)) 0
  | .double negative size =>
    let plain := (size.shortest .larger).plain
    ofPlain? (if negative then '-' :: plain else plain)

def ofJson? : Json → Option Decimal
  | .string text => ofText? text
  | .number value => ofNumber? value
  | _ => none

end Decimal

namespace Instant

def toJson (value : Instant) : Json := .string value.toText

def ofJson? (value : Json) : Option Instant := do ofText? (← value.text?)

end Instant

def userIdOfJson? (value : Json) : Option UInt64 :=
  (value.natural? 18446744073709551615).map UInt64.ofNat

end SpotExchange
