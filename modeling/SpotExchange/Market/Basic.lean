import SpotExchange.Book.DepthView
import SpotExchange.Book.OrderBook
import SpotExchange.Listing

/-!
The market of one symbol: its listing, its resting orders, the depth views that
are published of them, and two flags.
-/

namespace SpotExchange

structure Market where
  listing : Listing
  book : OrderBook
  depths : BySide DepthView
  halted : Bool
  ready : Bool
  deriving DecidableEq

namespace Market

def ofListing (listing : Listing) : Market :=
  { listing
    book := OrderBook.empty
    depths := ⟨.empty .buy listing.maxDepth, .empty .sell listing.maxDepth⟩
    halted := listing.halted
    ready := listing.ready }

def symbol (market : Market) : String := market.listing.name

def depth (market : Market) (side : Side) : DepthView := market.depths.get side

def setDepth (market : Market) (side : Side) (view : DepthView) : Market :=
  { market with depths := market.depths.set side view }

/-- Stops matching; incoming orders are refused until trading resumes. -/
def halt (market : Market) : Market := { market with halted := true }

def resume (market : Market) : Market := { market with halted := false }

def setReady (market : Market) (ready : Bool) : Market := { market with ready }

def snapshot (market : Market) (side : Side) : DepthSnapshot :=
  (market.depth side).snapshot market.symbol

end Market

end SpotExchange
