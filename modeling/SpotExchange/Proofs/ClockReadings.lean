import SpotExchange.Launch
import SpotExchange.Proofs.DirectoryShape
import SpotExchange.Proofs.Redated
import SpotExchange.Proofs.TradingPit

/-!
What an exchange takes from the clock: the dates of trades, and the time of an order that
tells none of its own. Two readings of the clock lead to the same exchange up to those
dates, as long as they are on the same side of every cutoff in force.
-/

namespace SpotExchange

variable {clock : Instant → Instant}

namespace Directory
variable (clock) (directory : Directory)

def redated : Directory :=
  { directory with markets := directory.markets.map (Market.redated clock) }

theorem market?_redated (id : MarketId) :
    (directory.redated clock).market? id = (directory.market? id).map (Market.redated clock) := by
  simp [market?, redated]

theorem put_redated (id : MarketId) (market : Market) :
    (directory.put id market).redated clock =
      (directory.redated clock).put id (market.redated clock) := by
  simp [put, redated]

theorem openMarket_redated (symbol : String) :
    Prod.map id (redated clock) (directory.openMarket symbol) =
      (directory.redated clock).openMarket symbol := by
  have fresh (listing : Listing) :
      (Market.ofListing listing).redated clock = Market.ofListing listing := rfl
  simp only [openMarket, redated, Prod.map, Array.map_push, Array.size_map, fresh]
  rfl

theorem acquire_redated (symbol : String) :
    Prod.map id (redated clock) (directory.acquire symbol) =
      (directory.redated clock).acquire symbol := by
  have found : (directory.redated clock).find? symbol = directory.find? symbol := rfl
  unfold acquire
  rw [found]
  cases directory.find? symbol with
  | some id => rfl
  | none => exact openMarket_redated clock directory symbol

/-- The issuance windows in force: those of markets, and those of listings that are kept for
the next market of their symbol. -/
def windows : List IssuanceWindow :=
  (directory.markets.toList.map Market.listing ++ directory.listings.map Prod.snd).filterMap
    Listing.issuance

theorem mem_windows {window : IssuanceWindow} :
    window ∈ directory.windows ↔
      (∃ market ∈ directory.markets, market.listing.issuance = some window) ∨
        ∃ entry ∈ directory.listings, entry.2.issuance = some window := by
  simp [windows]

/-- A clock keeps to a directory if no time changes its side of a cutoff in force. -/
def KeptBy (clock : Instant → Instant) (directory : Directory) : Prop :=
  ∀ window ∈ directory.windows, ∀ time, clock time < window.cutoff ↔ time < window.cutoff

variable {clock directory}

theorem KeptBy.mono {later : Directory} (kept : directory.KeptBy clock)
    (within : later.windows ⊆ directory.windows) : later.KeptBy clock :=
  fun window opened => kept window (within opened)

theorem KeptBy.listing {id : MarketId} {market : Market} (kept : directory.KeptBy clock)
    (present : directory.market? id = some market) : market.listing.KeptBy clock := by
  intro window known
  exact kept window (directory.mem_windows.2 (.inl ⟨market, Array.mem_of_getElem? present, known⟩))

theorem windows_put {id : MarketId} {before market : Market}
    (present : directory.market? id = some before) (same : market.listing = before.listing) :
    (directory.put id market).windows ⊆ directory.windows := by
  intro window inForce
  refine directory.mem_windows.2 ?_
  rcases (directory.put id market).mem_windows.1 inForce with ⟨other, member, known⟩ | listed
  · rcases Array.mem_or_eq_of_mem_setIfInBounds member with old | rfl
    · exact .inl ⟨other, old, known⟩
    · exact .inl ⟨before, Array.mem_of_getElem? present, same ▸ known⟩
  · exact .inr listed

theorem listed_window {symbol : String} {window : IssuanceWindow}
    (known : (directory.listing symbol).issuance = some window) :
    ∃ entry ∈ directory.listings, entry.2.issuance = some window := by
  unfold listing at known
  cases found : directory.listings.lookup symbol with
  | none => simp [found, Settings.defaultListing, Listing.named] at known
  | some listing =>
    obtain ⟨front, back, split, -⟩ := List.lookup_eq_some_iff.1 found
    exact ⟨(symbol, listing), by simp [split], by simpa [found] using known⟩

theorem windows_acquire (symbol : String) :
    (directory.acquire symbol).2.windows ⊆ directory.windows := by
  unfold acquire
  cases found : directory.find? symbol with
  | some id => exact List.Subset.refl _
  | none =>
    intro window inForce
    refine directory.mem_windows.2 ?_
    have source := (directory.openMarket symbol).2.mem_windows.1 inForce
    rcases source with ⟨market, member, known⟩ | listed
    · rcases Array.mem_push.1 member with old | rfl
      · exact .inl ⟨market, old, known⟩
      · exact .inr (listed_window known)
    · exact .inr listed

theorem windows_remove? {symbol : String} {id : MarketId} {later : Directory}
    (removed : directory.remove? symbol = some (id, later)) :
    later.windows ⊆ directory.windows := by
  obtain ⟨_, -, same⟩ := Option.map_eq_some_iff.1 removed
  cases same
  exact List.Subset.refl _

end Directory

namespace Exchange
variable (clock) (exchange : Exchange)

def redated : Exchange :=
  ⟨exchange.directory.redated clock, exchange.desk.redated clock⟩

theorem redated_comp (later : Instant → Instant) :
    (exchange.redated clock).redated later = exchange.redated (later ∘ clock) := by
  simp [redated, Directory.redated, Desk.redated, Sink.redated_comp, Market.redated_comp]

theorem onMarket_redated (id : MarketId) {change : Market → Market}
    (dateless : ∀ market, (change market).redated clock = change (market.redated clock)) :
    (exchange.onMarket id change).redated clock = (exchange.redated clock).onMarket id change := by
  have found := exchange.directory.market?_redated clock id
  dsimp only [onMarket, redated]
  rw [found]
  cases exchange.directory.market? id with
  | none => rfl
  | some market => simp only [Option.map_some, Directory.put_redated, dateless]

theorem placeAt_redated (now : Instant) (id : MarketId) (order : Order)
    (kept : exchange.directory.KeptBy clock) :
    (exchange.placeAt now id order).map
        (Prod.map (Option.map (Outcome.redated clock clock)) (redated clock)) =
      (exchange.redated clock).placeAt (clock now) id (order.redated clock) := by
  have found := exchange.directory.market?_redated clock id
  dsimp only [placeAt, redated]
  rw [found]
  cases present : exchange.directory.market? id with
  | none => rfl
  | some market =>
    refine map_bind_congr (exchange.desk.place_redated clock now (kept.listing present) order) ?_
    intro (outcome, market, desk)
    simp only [map_return, Prod.map, redated, Directory.put_redated]
    rfl

theorem cancelAt_redated (id : MarketId) (request : CancelRequest) :
    (exchange.cancelAt id request).map
        (Prod.map (Option.map (Order.redated clock)) (redated clock)) =
      (exchange.redated clock).cancelAt id request := by
  have found := exchange.directory.market?_redated clock id
  dsimp only [cancelAt, redated]
  rw [found]
  cases present : exchange.directory.market? id with
  | none => rfl
  | some market =>
    refine map_bind_congr (exchange.desk.cancel_redated clock market request) ?_
    intro (order, market, desk)
    simp only [map_return, Prod.map, redated, Directory.put_redated]

theorem isReady_redated (id : MarketId) :
    (exchange.redated clock).isReady id = exchange.isReady id := by
  have found := exchange.directory.market?_redated clock id
  dsimp only [isReady, redated]
  rw [found]
  cases exchange.directory.market? id <;> rfl

theorem acquire_redated (symbol : String) :
    Prod.map id (redated clock) (exchange.acquire symbol) =
      (exchange.redated clock).acquire symbol := by
  have acquired := exchange.directory.acquire_redated clock symbol
  dsimp only [acquire, redated]
  rw [← acquired]
  rfl

theorem place_redated (now : Instant) (order : Order) (kept : exchange.directory.KeptBy clock) :
    (exchange.place now order).map
        (Prod.map (Option.map (Outcome.redated clock clock)) (redated clock)) =
      (exchange.redated clock).place (clock now) (order.redated clock) := by
  have acquired := exchange.acquire_redated clock order.symbol
  have later : (exchange.acquire order.symbol).2.directory.KeptBy clock :=
    kept.mono (Directory.windows_acquire order.symbol)
  unfold place
  dsimp only [Order.redated]
  rw [← acquired]
  generalize exchange.acquire order.symbol = opened at later
  obtain ⟨market, opened⟩ := opened
  refine (map_ite_congr (opened.placeAt_redated clock now market order later) rfl).trans ?_
  exact (ite_congr (congrArg (· = true) (opened.isReady_redated clock market)) (fun _ => rfl)
    fun _ => rfl).symm

theorem find?_redated (symbol : String) :
    (exchange.redated clock).directory.find? symbol = exchange.directory.find? symbol := rfl

theorem onLive_redated (symbol : String) {change : Market → Market}
    (dateless : ∀ market, (change market).redated clock = change (market.redated clock)) :
    Prod.map id (redated clock) (exchange.onLive symbol change) =
      (exchange.redated clock).onLive symbol change := by
  unfold onLive
  rw [find?_redated]
  cases exchange.directory.find? symbol with
  | none => rfl
  | some id => exact congrArg (Prod.mk none) (exchange.onMarket_redated clock id dateless)

end Exchange

def Command.redated (clock : Instant → Instant) : Command → Command
  | .placeOrder order => .placeOrder (order.redated clock)
  | command => command

namespace Exchange
variable (clock) (exchange : Exchange)

/-- A command on another clock does the same, up to dates. -/
theorem apply_redated (now : Instant) (command : Command)
    (kept : exchange.directory.KeptBy clock) :
    (exchange.apply now command).map (Prod.map id (redated clock)) =
      (exchange.redated clock).apply (clock now) (command.redated clock) := by
  cases command with
  | placeOrder order =>
    exact map_bind_congr (exchange.place_redated clock now order kept) fun _ => rfl
  | cancelOrder request =>
    have acquired := exchange.acquire_redated clock request.symbol
    dsimp only [apply, Command.redated]
    rw [← acquired]
    exact map_bind_congr (cancelAt_redated clock _ _ request) fun _ => rfl
  | haltSymbol symbol =>
    exact congrArg Except.ok (exchange.onLive_redated clock symbol fun _ => rfl)
  | resumeSymbol symbol =>
    exact congrArg Except.ok (exchange.onLive_redated clock symbol fun _ => rfl)
  | markReady symbol =>
    have acquired := exchange.acquire_redated clock symbol
    dsimp only [apply, Command.redated]
    rw [← acquired]
    exact congrArg (fun later => Except.ok (none, later)) (onMarket_redated clock _ _ fun _ => rfl)
  | removeSymbol symbol =>
    dsimp only [apply, Command.redated, Directory.remove?]
    rw [find?_redated]
    cases exchange.directory.find? symbol <;> rfl

section Windows
variable {exchange later : Exchange}

theorem windows_of_placeAt {now : Instant} {id : MarketId} {order : Order}
    {outcome : Option Outcome} (placed : exchange.placeAt now id order = .ok (outcome, later)) :
    later.directory.windows ⊆ exchange.directory.windows := by
  unfold placeAt at placed
  cases present : exchange.directory.market? id with
  | none =>
    rw [present] at placed
    cases placed
    exact List.Subset.refl _
  | some market =>
    simp only [present, Desk.place, bind_eq_ok, return_eq_ok] at placed
    obtain ⟨_, ⟨⟨outcome, after⟩, traded, rfl⟩, same⟩ := placed
    cases same
    exact Directory.windows_put present (market.listing_of_trade traded)

theorem windows_of_cancelAt {id : MarketId} {request : CancelRequest} {order : Option Order}
    (cancelled : exchange.cancelAt id request = .ok (order, later)) :
    later.directory.windows ⊆ exchange.directory.windows := by
  unfold cancelAt at cancelled
  cases present : exchange.directory.market? id with
  | none =>
    rw [present] at cancelled
    cases cancelled
    exact List.Subset.refl _
  | some market =>
    simp only [present, Desk.cancel, bind_eq_ok] at cancelled
    obtain ⟨_, ⟨⟨removed, after⟩, taken, published⟩, same⟩ := cancelled
    have listing := market.listing_of_cancel taken
    cases removed <;> cases published <;> cases same <;>
      exact Directory.windows_put present listing

theorem windows_onMarket (id : MarketId) (change : Market → Market)
    (same : ∀ market, (change market).listing = market.listing) :
    (exchange.onMarket id change).directory.windows ⊆ exchange.directory.windows := by
  unfold onMarket
  cases present : exchange.directory.market? id with
  | none => exact List.Subset.refl _
  | some market => exact Directory.windows_put present (same market)

theorem windows_onLive (symbol : String) (change : Market → Market)
    (same : ∀ market, (change market).listing = market.listing) :
    (exchange.onLive symbol change).2.directory.windows ⊆ exchange.directory.windows := by
  unfold onLive
  cases exchange.directory.find? symbol with
  | none => exact List.Subset.refl _
  | some id => exact windows_onMarket id change same

/-- No command brings a window that was not in force before. -/
theorem windows_of_apply {now : Instant} {command : Command} {reply : Reply}
    (applied : exchange.apply now command = .ok (reply, later)) :
    later.directory.windows ⊆ exchange.directory.windows := by
  cases command with
  | placeOrder order =>
    simp only [apply, place, bind_eq_ok, return_eq_ok] at applied
    obtain ⟨⟨outcome, after⟩, placed, same⟩ := applied
    cases same
    refine List.Subset.trans ?_ (Directory.windows_acquire order.symbol)
    split at placed
    · exact windows_of_placeAt placed
    · cases placed
      exact List.Subset.refl _
  | cancelOrder request =>
    simp only [apply, bind_eq_ok, return_eq_ok] at applied
    obtain ⟨⟨order, after⟩, cancelled, same⟩ := applied
    cases same
    exact List.Subset.trans (windows_of_cancelAt cancelled) (Directory.windows_acquire _)
  | haltSymbol symbol =>
    obtain rfl := congrArg Prod.snd (Except.ok.inj applied)
    exact windows_onLive symbol Market.halt fun _ => rfl
  | resumeSymbol symbol =>
    obtain rfl := congrArg Prod.snd (Except.ok.inj applied)
    exact windows_onLive symbol Market.resume fun _ => rfl
  | markReady symbol =>
    obtain rfl := congrArg Prod.snd (Except.ok.inj applied)
    exact List.Subset.trans (windows_onMarket _ (fun market => market.setReady true) fun _ => rfl)
      (Directory.windows_acquire symbol)
  | removeSymbol symbol =>
    cases removed : exchange.directory.remove? symbol with
    | none =>
      simp only [apply, removed] at applied
      cases applied
      exact List.Subset.refl _
    | some taken =>
      simp only [apply, removed] at applied
      cases applied
      exact Directory.windows_remove? removed

end Windows

end Exchange

section Reading
variable {now other : Instant}

theorem map_bind_alike {α β γ : Type} {image : β → γ} {first : Option α} {next last : α → Option β}
    (more : ∀ value, (next value).map image = (last value).map image) :
    (first >>= next).map image = (first >>= last).map image := by
  cases first with
  | none => rfl
  | some value => exact more value

/-- Readings that count as one and the same date an order alike, if it has no date itself. -/
theorem Order.ofJson?_redated (same : clock now = clock other) (source : Json.Source)
    (value : Json) :
    (Order.ofJson? source now value).map (redated clock) =
      (Order.ofJson? source other value).map (redated clock) := by
  refine map_bind_alike fun slots => ?_
  split
  case h_1 number userId symbol kind side price amount filledAmount filledMoney status createdAt =>
    -- Ten fields are decoded before the date, none of them with the clock.
    iterate 10 refine map_bind_alike fun _ => ?_
    cases createdAt with
    | none => simp [Json.optional, redated, same]
    | some value => rfl
  case h_2 => rfl

theorem Command.field?_alike {α β : Type} {image : α → β} {decode decode' : Json → Option α}
    (alike : ∀ value, (decode value).map image = (decode' value).map image) (name : String)
    (fields : Json) :
    (Command.field? name fields decode).map image =
      (Command.field? name fields decode').map image := by
  refine map_bind_alike fun slots => ?_
  split
  case h_1 slot =>
    cases slot with
    | none => rfl
    | some value => exact alike value
  case h_2 => rfl

theorem Command.ofFields?_redated (same : clock now = clock other) (name : String)
    (fields : Json) :
    (Command.ofFields? now name fields).map (redated clock) =
      (Command.ofFields? other name fields).map (redated clock) := by
  unfold Command.ofFields?
  split
  case h_1 =>
    have read := field?_alike (Order.ofJson?_redated same .tree) "order" fields
    simpa [Option.map_map, Function.comp_def, redated] using
      congrArg (Option.map Command.placeOrder) read
  all_goals rfl

theorem Command.ofText?_redated (same : clock now = clock other) (text : List Char) :
    (Command.ofText? now text).map (redated clock) =
      (Command.ofText? other text).map (redated clock) := by
  refine map_bind_alike fun value => ?_
  split
  case isFalse => rfl
  case isTrue =>
    unfold Command.ofJson?
    split
    · refine map_bind_alike fun name => ?_
      split
      · exact ofFields?_redated same ..
      · rfl
    · exact ofFields?_redated same ..
    · rfl

end Reading

section Feeding
variable {exchange second later : Exchange} {now other : Instant}

abbrev TimedLines := List (Instant × ByteArray)

def Exchange.feedAt (exchange : Exchange) : TimedLines → Option Stop × Exchange
  | [] => (none, exchange)
  | (now, line) :: rest =>
    match exchange.feedLine now line with
    | .ok exchange => exchange.feedAt rest
    | .error stop => (some stop, exchange)

theorem Exchange.feed_eq_feedAt (exchange : Exchange) (now : Instant) (lines : List ByteArray) :
    exchange.feed now lines = exchange.feedAt (lines.map fun line => (now, line)) := by
  induction lines generalizing exchange with
  | nil => rfl
  | cons line rest ih =>
    rw [feed, List.map_cons, feedAt]
    cases exchange.feedLine now line with
    | error stop => rfl
    | ok later => exact ih later

theorem Directory.windows_redated (directory : Directory) :
    (directory.redated clock).windows = directory.windows := by
  simp only [windows, redated, Array.toList_map, List.map_map]
  rfl

theorem Exchange.keptBy_of_alike (alike : exchange.redated clock = second.redated clock)
    (kept : exchange.directory.KeptBy clock) : second.directory.KeptBy clock := by
  have directories : exchange.directory.redated clock = second.directory.redated clock :=
    congrArg Exchange.directory alike
  have windows : second.directory.windows = exchange.directory.windows := by
    rw [← second.directory.windows_redated, ← directories, Directory.windows_redated]
  exact kept.mono (windows ▸ List.Subset.refl _)

theorem Exchange.receiveText_alike (alike : exchange.redated clock = second.redated clock)
    (kept : exchange.directory.KeptBy clock) (same : clock now = clock other) (text : List Char) :
    (exchange.receiveText now text).map (Prod.map id (redated clock)) =
      (second.receiveText other text).map (Prod.map id (redated clock)) := by
  have read := Command.ofText?_redated same text
  unfold receiveText applyRead
  cases first : Command.ofText? now text <;> cases last : Command.ofText? other text <;>
    rw [first, last] at read
  case none.none => exact congrArg (fun later => Except.ok (_, later)) alike
  case none.some => cases read
  case some.none => cases read
  case some.some command command' =>
    have commands : command.redated clock = command'.redated clock := Option.some.inj read
    have kept' := keptBy_of_alike alike kept
    calc
      _ = (exchange.redated clock).apply (clock now) (command.redated clock) :=
        exchange.apply_redated clock now command kept
      _ = (second.redated clock).apply (clock other) (command'.redated clock) := by
        rw [alike, same, commands]
      _ = _ := (second.apply_redated clock other command' kept').symm

theorem Exchange.feedLine_some {line : ByteArray} {text : String}
    (read : String.fromUTF8? line = some text) :
    exchange.feedLine now line =
      (match lineCommand? text.toList with
        | some command => (exchange.receiveText now command).map Prod.snd
        | none => .ok exchange).mapError Stop.overflow := by
  rw [feedLine, read]
  cases known : lineCommand? text.toList with
  | none => simp only [feedText, known]
  | some command =>
    simp only [feedText, known]
    cases exchange.receiveText now command <;> rfl

theorem Exchange.feedLine_none {line : ByteArray} (unread : String.fromUTF8? line = none) :
    exchange.feedLine now line = .error .notText := by
  rw [feedLine, unread]

theorem Exchange.feedLine_alike (alike : exchange.redated clock = second.redated clock)
    (kept : exchange.directory.KeptBy clock) (same : clock now = clock other) (line : ByteArray) :
    (exchange.feedLine now line).map (redated clock) =
      (second.feedLine other line).map (redated clock) := by
  cases read : String.fromUTF8? line with
  | none => rw [feedLine_none read, feedLine_none read]
  | some text =>
    rw [feedLine_some read, feedLine_some read]
    cases lineCommand? text.toList with
    | none => exact congrArg Except.ok alike
    | some command =>
      have effect (result : Except Overflow (Reply × Exchange)) :
          ((result.map Prod.snd).mapError Stop.overflow).map (redated clock) =
            ((result.map (Prod.map id (redated clock))).map Prod.snd).mapError Stop.overflow := by
        cases result <;> rfl
      rw [effect, effect, receiveText_alike alike kept same command]

theorem Exchange.feedLine_cases {line : ByteArray}
    (fed : exchange.feedLine now line = .ok later) :
    later = exchange ∨ ∃ command reply, exchange.apply now command = .ok (reply, later) := by
  cases read : String.fromUTF8? line with
  | none =>
    rw [feedLine_none read] at fed
    cases fed
  | some text =>
    rw [feedLine_some read] at fed
    cases known : lineCommand? text.toList with
    | none =>
      simp only [known] at fed
      cases fed
      exact .inl rfl
    | some message =>
      simp only [known, receiveText] at fed
      cases decoded : Command.ofText? now message with
      | none =>
        rw [decoded] at fed
        cases fed
        exact .inl rfl
      | some command =>
        rw [decoded] at fed
        cases applied : exchange.apply now command with
        | error cause =>
          rw [applyRead, applied] at fed
          cases fed
        | ok result =>
          rw [applyRead, applied] at fed
          cases fed
          exact .inr ⟨command, result.1, applied⟩

theorem Exchange.windows_of_feedLine {line : ByteArray}
    (fed : exchange.feedLine now line = .ok later) :
    later.directory.windows ⊆ exchange.directory.windows := by
  rcases feedLine_cases fed with rfl | ⟨command, reply, applied⟩
  · exact List.Subset.refl _
  · exact windows_of_apply applied

/-- Lines that are read at times that count as the same lead to the same exchange, up to
dates, and are stopped alike. -/
theorem Exchange.feedAt_alike {lines others : TimedLines}
    (alike : exchange.redated clock = second.redated clock)
    (kept : exchange.directory.KeptBy clock)
    (paired : List.Forall₂ (fun line other => line.2 = other.2 ∧ clock line.1 = clock other.1)
      lines others) :
    Prod.map id (redated clock) (exchange.feedAt lines) =
      Prod.map id (redated clock) (second.feedAt others) := by
  induction paired generalizing exchange second with
  | nil => exact congrArg (Prod.mk none) alike
  | @cons head other _ _ pair _ ih =>
    obtain ⟨now, line⟩ := head
    obtain ⟨moment, _⟩ := other
    obtain ⟨rfl, same⟩ := pair
    have fed := feedLine_alike alike kept same line
    rw [feedAt, feedAt]
    -- A line stops both runs for the same cause, or neither of them.
    cases first : exchange.feedLine now line with
    | error stop =>
      cases last : second.feedLine moment line with
      | error stop' =>
        rw [first, last] at fed
        cases fed
        exact congrArg (Prod.mk (some stop)) alike
      | ok later => rw [first, last] at fed; cases fed
    | ok later =>
      cases last : second.feedLine moment line with
      | error stop => rw [first, last] at fed; cases fed
      | ok later' =>
        rw [first, last] at fed
        exact ih (Except.ok.inj fed) (kept.mono (windows_of_feedLine first))

end Feeding

end SpotExchange
