import SpotExchange.Market.Basic
import SpotExchange.Settings

/-!
The directory of markets: at most one live market for each symbol, opened when
it is first asked for. A market that was removed can still be reached by whoever
kept its identifier; its symbol then opens a new one.
-/

namespace SpotExchange

/-- Names one market for good, live or removed. -/
structure MarketId where
  index : Nat
  deriving DecidableEq

/-- Every market ever opened, the live ones by symbol, and the listings that new
ones are opened with. -/
structure Directory where
  markets : Array Market
  live : List (String × MarketId)
  listings : List (String × Listing)
  defaults : Settings

namespace Directory

def configure (directory : Directory) (listing : Listing) : Directory :=
  { directory with listings := (listing.name, listing) :: directory.listings }

def ofSettings (settings : Settings) : Directory :=
  settings.listings.foldl configure
    { markets := #[], live := [], listings := [], defaults := { settings with listings := [] } }

def listing (directory : Directory) (symbol : String) : Listing :=
  (directory.listings.lookup symbol).getD (directory.defaults.defaultListing symbol)

def find? (directory : Directory) (symbol : String) : Option MarketId :=
  directory.live.lookup symbol

def market? (directory : Directory) (id : MarketId) : Option Market := directory.markets[id.index]?

def put (directory : Directory) (id : MarketId) (market : Market) : Directory :=
  { directory with markets := directory.markets.setIfInBounds id.index market }

def openMarket (directory : Directory) (symbol : String) : MarketId × Directory :=
  let id : MarketId := ⟨directory.markets.size⟩
  (id, { directory with
    markets := directory.markets.push (.ofListing (directory.listing symbol))
    live := (symbol, id) :: directory.live })

def acquire (directory : Directory) (symbol : String) : MarketId × Directory :=
  match directory.find? symbol with
  | some id => (id, directory)
  | none => directory.openMarket symbol

def remove? (directory : Directory) (symbol : String) : Option (MarketId × Directory) :=
  (directory.find? symbol).map fun id =>
    (id, { directory with live := directory.live.filter fun entry => entry.1 ≠ symbol })

/-- The symbols of the live markets in the order of their UTF-8 bytes. -/
def symbols (directory : Directory) : List String :=
  (directory.live.map fun entry => entry.1).mergeSort fun a b => a ≤ b

def size (directory : Directory) : Nat := directory.live.length

end Directory

end SpotExchange
