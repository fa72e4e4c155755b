import SpotExchange.Order

/-!
Listings: the terms on which one symbol is traded.
-/

namespace SpotExchange

/-- Incoming limit orders of one side that were created before the cutoff are
shared out pro rata over the other side of the book. -/
structure IssuanceWindow where
  cutoff : Instant
  side : Side
  deriving DecidableEq

def IssuanceWindow.appliesTo (window : IssuanceWindow) (order : Order) : Bool :=
  order.kind = .limit && order.side = window.side && order.createdAt < window.cutoff

/-- The terms of a symbol: places of quantities and of money, rows of a depth
view, the flags a market starts with, and its issuance window. -/
structure Listing where
  name : String
  baseScale : Nat
  quoteScale : Nat
  maxDepth : Nat
  halted : Bool
  ready : Bool
  issuance : Option IssuanceWindow
  deriving DecidableEq

namespace Listing

def defaultScale : Nat := 8

def defaultDepth : Nat := 100

def named (name : String) : Listing :=
  { name, baseScale := defaultScale, quoteScale := defaultScale, maxDepth := defaultDepth
    halted := false, ready := true, issuance := none }

def floorBase (listing : Listing) (value : Decimal) : Decimal := value.truncate listing.baseScale

def floorQuote (listing : Listing) (value : Decimal) : Decimal := value.truncate listing.quoteScale

def apportions (listing : Listing) (order : Order) : Bool :=
  match listing.issuance with
  | some window => window.appliesTo order
  | none => false

end Listing

end SpotExchange
