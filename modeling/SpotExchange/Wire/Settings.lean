import SpotExchange.Settings
import SpotExchange.Toml.Document
import SpotExchange.Wire.Values

/-!
The JSON forms of listings, issuance windows and settings, and settings files in
TOML.
-/

namespace SpotExchange

open Json (Source required optional)

def largest32 : Nat := 4294967295

def largest64 : Nat := 18446744073709551615

namespace IssuanceWindow

def toJson (window : IssuanceWindow) : Json :=
  .object [("cutoff", window.cutoff.toJson), ("side", window.side.toJson)]

/-- Reads a window; it is for sell orders unless it says otherwise. -/
def ofJson? (source : Source) (value : Json) : Option IssuanceWindow := do
  match ← value.slots? ["cutoff", "side"] with
  | [cutoff, side] =>
    return {
      cutoff := ← required cutoff Instant.ofJson?
      side := ← optional side .sell (Side.ofJson? source) }
  | _ => none

end IssuanceWindow

namespace Listing

def toJson (listing : Listing) : Json :=
  .object
    [("name", .string listing.name),
      ("base_scale", .ofNat listing.baseScale),
      ("quote_scale", .ofNat listing.quoteScale),
      ("max_depth", .ofNat listing.maxDepth),
      ("halted", .bool listing.halted),
      ("ready", .bool listing.ready),
      ("apportion", Json.ofOption IssuanceWindow.toJson listing.issuance)]

def issuanceOfJson? (source : Source) : Json → Option (Option IssuanceWindow)
  | .null => some none
  | value => (IssuanceWindow.ofJson? source value).map some

def ofJson? (source : Source) (value : Json) : Option Listing := do
  let slots ← value.slots?
    ["name", "base_scale", "quote_scale", "max_depth", "halted", "ready", "apportion"]
  match slots with
  | [name, baseScale, quoteScale, maxDepth, halted, ready, issuance] =>
    return {
      name := ← required name Json.text?
      baseScale := ← optional baseScale defaultScale (Json.natural? largest32)
      quoteScale := ← optional quoteScale defaultScale (Json.natural? largest32)
      maxDepth := ← optional maxDepth defaultDepth (Json.natural? largest64)
      halted := ← optional halted false Json.bool?
      ready := ← optional ready true Json.bool?
      issuance := ← optional issuance none (issuanceOfJson? source) }
  | _ => none

end Listing

def Settings.ofJson? (source : Source) (value : Json) : Option Settings := do
  let slots ← value.slots?
    ["metrics_addr", "max_trade_batch", "default_depth", "default_base_scale",
      "default_quote_scale", "symbols"]
  match slots with
  | [metricsAddress, maxTradeBatch, depth, baseScale, quoteScale, listings] =>
    return {
      metricsAddress := ← optional metricsAddress Settings.default.metricsAddress Json.text?
      maxTradeBatch :=
        ← optional maxTradeBatch Settings.default.maxTradeBatch (Json.natural? largest64)
      defaultDepth := ← optional depth Settings.default.defaultDepth (Json.natural? largest64)
      defaultBaseScale :=
        ← optional baseScale Settings.default.defaultBaseScale (Json.natural? largest32)
      defaultQuoteScale :=
        ← optional quoteScale Settings.default.defaultQuoteScale (Json.natural? largest32)
      listings := ← optional listings [] (Json.list? (Listing.ofJson? source)) }
  | _ => none

inductive SettingsError where
  | undecodable
  | faulty (fault : SettingsFault)
  deriving DecidableEq

def Settings.checked (settings : Settings) : Except SettingsError Settings :=
  match settings.fault? with
  | some fault => .error (.faulty fault)
  | none => .ok settings

def Settings.ofToml (text : String) : Except SettingsError Settings :=
  match (do ofJson? .text (← Toml.ofText? text) : Option Settings) with
  | some settings => settings.checked
  | none => .error .undecodable

end SpotExchange
