import SpotExchange.Listing

/-!
Settings of an exchange: defaults for symbols, the listings it knows from the
start, and how it publishes.
-/

namespace SpotExchange

structure Settings where
  metricsAddress : String
  maxTradeBatch : Nat
  defaultDepth : Nat
  defaultBaseScale : Nat
  defaultQuoteScale : Nat
  listings : List Listing
  deriving DecidableEq

inductive SettingsFault where
  | noTradeBatch
  | noDefaultDepth
  | unnamedSymbol
  | repeatedSymbol (name : String)
  | noDepth (name : String)
  deriving DecidableEq

def SettingsFault.message : SettingsFault → String
  | .noTradeBatch => "invalid config: max_trade_batch must be positive"
  | .noDefaultDepth => "invalid config: default_depth must be positive"
  | .unnamedSymbol => "invalid config: symbol name must not be empty"
  | .repeatedSymbol name => "invalid config: symbol " ++ name ++ " configured twice"
  | .noDepth name => "invalid config: symbol " ++ name ++ " max_depth must be positive"

namespace Settings

def default : Settings :=
  { metricsAddress := "0.0.0.0:4010"
    maxTradeBatch := 1000
    defaultDepth := Listing.defaultDepth
    defaultBaseScale := Listing.defaultScale
    defaultQuoteScale := Listing.defaultScale
    listings := [] }

/-- The first fault of a list of listings behind those already `seen`. -/
def listingFault? (seen : List String) : List Listing → Option SettingsFault
  | [] => none
  | listing :: rest =>
    if listing.name = "" then some .unnamedSymbol
    else if listing.name ∈ seen then some (.repeatedSymbol listing.name)
    else if listing.maxDepth = 0 then some (.noDepth listing.name)
    else listingFault? (listing.name :: seen) rest

def fault? (settings : Settings) : Option SettingsFault :=
  if settings.maxTradeBatch = 0 then some .noTradeBatch
  else if settings.defaultDepth = 0 then some .noDefaultDepth
  else listingFault? [] settings.listings

def defaultListing (settings : Settings) (name : String) : Listing :=
  { Listing.named name with
    baseScale := settings.defaultBaseScale
    quoteScale := settings.defaultQuoteScale
    maxDepth := settings.defaultDepth }

end Settings

end SpotExchange
