import SpotExchange.Json.Writer

/-!
Random identifiers of trades, in the form of RFC 9562, version 4.
-/

namespace SpotExchange.TradeId

def byteText (byte : Nat) : List Char := [hexChar (byte / 16 % 16), hexChar (byte % 16)]

/-- Sixteen bytes with the bits of version and variant set. -/
def mark (bytes : List Nat) : List Nat :=
  (bytes.modify 6 fun byte => byte % 16 + 64).modify 8 fun byte => byte % 64 + 128

def ofBytes (bytes : List Nat) : String :=
  let digits := (mark bytes).map byteText
  let group := fun start count => ((digits.drop start).take count).flatten
  String.ofList (group 0 4 ++ '-' :: group 4 2 ++ '-' :: group 6 2 ++ '-' :: group 8 2 ++
    '-' :: group 10 6)

end SpotExchange.TradeId
