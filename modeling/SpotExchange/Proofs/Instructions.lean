import SpotExchange.Proofs.TradingPit
import Mathlib.Data.List.Basic

/-!
Instructions to an exchange, each about one symbol: a listing is configured, a market is
looked up or removed, a command or an order is routed. An instruction works on the live
market of its symbol, opens one or takes it off, and leaves all other markets alone.
-/

namespace SpotExchange

/-- What the directory of an exchange, or the exchange, is told or asked about a symbol. -/
inductive Instruction where
  | configure (listing : Listing)
  | acquire (symbol : String)
  | find (symbol : String)
  | remove (symbol : String)
  | command (command : Command)
  | place (order : Order)
  deriving DecidableEq

abbrev Instructions := List (Instant × Instruction)

namespace Instruction

def symbol : Instruction → String
  | .configure listing => listing.name
  | .acquire symbol => symbol
  | .find symbol => symbol
  | .remove symbol => symbol
  | .command given => given.symbol
  | .place order => order.symbol

def listing? : Instruction → Option Listing
  | .configure listing => some listing
  | _ => none

def opens : Instruction → Bool
  | .acquire _ => true
  | .command (.placeOrder _) => true
  | .command (.cancelOrder _) => true
  | .command (.markReady _) => true
  | .place _ => true
  | _ => false

def removes : Instruction → Bool
  | .remove _ => true
  | .command (.removeSymbol _) => true
  | _ => false

theorem of_opens {instruction : Instruction} (opens : instruction.opens = true) :
    instruction.listing? = none ∧ instruction.removes = false := by
  cases instruction with
  | command given => cases given <;> first | exact ⟨rfl, rfl⟩ | cases opens
  | acquire | place => exact ⟨rfl, rfl⟩
  | configure | find | remove => cases opens

theorem of_removes {instruction : Instruction} (removes : instruction.removes = true) :
    instruction.listing? = none ∧ instruction.opens = false := by
  cases instruction with
  | command given => cases given <;> first | exact ⟨rfl, rfl⟩ | cases removes
  | remove => exact ⟨rfl, rfl⟩
  | configure | acquire | find | place => cases removes

end Instruction

namespace Market

/-- What an instruction about its symbol does to a live market. -/
def undergo (market : Market) (now : Instant) : Instruction → Except Overflow Market
  | .place order | .command (.placeOrder order) =>
    if market.ready then do
      let (_, market) ← market.trade now order
      return market
    else .ok market
  | .command (.cancelOrder request) => do
    let (_, market) ← market.cancel request
    return market
  | .command (.haltSymbol _) => .ok market.halt
  | .command (.resumeSymbol _) => .ok market.resume
  | .command (.markReady _) => .ok (market.setReady true)
  | .command (.removeSymbol _) => .ok market
  | .configure _ | .acquire _ | .find _ | .remove _ => .ok market

def undergoAll (market : Market) (symbol : String) (instructions : Instructions) :
    Except Overflow Market :=
  (instructions.filter fun step => step.2.symbol = symbol).foldlM
    (fun market step => market.undergo step.1 step.2) market

end Market

namespace Exchange

def carryOut (exchange : Exchange) (now : Instant) : Instruction → Except Overflow Exchange
  | .configure listing => .ok { exchange with directory := exchange.directory.configure listing }
  | .acquire symbol => .ok (exchange.acquire symbol).2
  | .find _ => .ok exchange
  | .remove symbol =>
    match exchange.directory.remove? symbol with
    | some (_, directory) => .ok { exchange with directory }
    | none => .ok exchange
  | .command command => do
    let (_, exchange) ← exchange.apply now command
    return exchange
  | .place order => do
    let (_, exchange) ← exchange.place now order
    return exchange

def carryOutAll (exchange : Exchange) (instructions : Instructions) : Except Overflow Exchange :=
  instructions.foldlM (fun exchange step => exchange.carryOut step.1 step.2) exchange

end Exchange

namespace Market

variable {market later last : Market} {now : Instant} {instruction : Instruction}
  {symbol : String} {instructions more : Instructions}

theorem listing_of_undergo (undergone : market.undergo now instruction = .ok later) :
    later.listing = market.listing := by
  have by_trade {order : Order} (placed : market.undergo now (.place order) = .ok later) :
      later.listing = market.listing := by
    simp only [undergo] at placed
    split_ifs at placed
    · simp only [bind_eq_ok, return_eq_ok] at placed
      obtain ⟨_, traded, rfl⟩ := placed
      exact market.listing_of_trade traded
    · cases placed
      rfl
  cases instruction with
  | command given =>
      cases given with
      | placeOrder order => exact by_trade undergone
      | cancelOrder request =>
          simp only [undergo, bind_eq_ok, return_eq_ok] at undergone
          obtain ⟨_, cancelled, rfl⟩ := undergone
          exact market.listing_of_cancel cancelled
      | haltSymbol | resumeSymbol | markReady | removeSymbol =>
          cases undergone
          rfl
  | place order => exact by_trade undergone
  | configure | acquire | find | remove =>
      cases undergone
      rfl

theorem undergo_of_removes (removes : instruction.removes = true) :
    market.undergo now instruction = .ok market := by
  cases instruction with
  | command given => cases given <;> first | rfl | cases removes
  | remove => rfl
  | configure | acquire | find | place => cases removes

theorem undergoAll_append : market.undergoAll symbol (instructions ++ more) = .ok last ↔
    ∃ middle, market.undergoAll symbol instructions = .ok middle ∧
      middle.undergoAll symbol more = .ok last := by
  simp only [undergoAll, List.filter_append, List.foldlM_append, bind_eq_ok]

theorem undergoAll_own (own : instruction.symbol = symbol) :
    market.undergoAll symbol [(now, instruction)] = market.undergo now instruction := by
  simp [undergoAll, own]

theorem undergoAll_other (other : instruction.symbol ≠ symbol) :
    market.undergoAll symbol [(now, instruction)] = .ok market := by
  simp [undergoAll, other]
  rfl

theorem listing_of_undergoAll (undergone : market.undergoAll symbol instructions = .ok last) :
    last.listing = market.listing := by
  induction instructions generalizing market with
  | nil =>
      cases undergone
      rfl
  | cons step rest ih =>
      have parts : market.undergoAll symbol ([step] ++ rest) = .ok last := undergone
      obtain ⟨middle, first, others⟩ := undergoAll_append.mp parts
      refine (ih others).trans ?_
      by_cases own : step.2.symbol = symbol
      · rw [undergoAll_own own] at first
        exact listing_of_undergo first
      · rw [undergoAll_other own] at first
        cases first
        rfl

end Market

namespace Directory

/-- What an instruction does to a directory: to its symbol, and to nothing else. -/
structure Carries (now : Instant) (instruction : Instruction) (before after : Directory) :
    Prop where
  sound : after.Sound
  listing : ∀ symbol, after.listing symbol =
    (instruction.listing?.filter fun listing => listing.name = symbol).getD (before.listing symbol)
  apart : ∀ symbol, symbol ≠ instruction.symbol → after.find? symbol = before.find? symbol
  others : ∀ {id market}, before.market? id = some market →
    before.find? instruction.symbol ≠ some id → after.market? id = some market
  own : ∀ {id market}, before.find? instruction.symbol = some id →
    before.market? id = some market → ∃ later, market.undergo now instruction = .ok later ∧
      after.market? id = some later ∧
      after.find? instruction.symbol = if instruction.removes then none else some id
  opened : before.find? instruction.symbol = none → instruction.opens = true →
    ∃ id later, before.market? id = none ∧ after.find? instruction.symbol = some id ∧
      after.market? id = some later ∧
      (Market.ofListing (before.listing instruction.symbol)).undergo now instruction = .ok later
  absent : before.find? instruction.symbol = none → instruction.opens = false →
    after.find? instruction.symbol = none

section Steps
variable {directory later : Directory} {now : Instant} {instruction : Instruction}
  {id : MarketId} {market after : Market}

theorem Sound.carries_still (sound : directory.Sound) (quiet : instruction.listing? = none)
    (idle : directory.find? instruction.symbol = none → instruction.opens = false)
    (same : ∀ {id market}, directory.find? instruction.symbol = some id →
      directory.market? id = some market →
        market.undergo now instruction = .ok market ∧ instruction.removes = false) :
    Carries now instruction directory directory where
  sound := sound
  listing _ := by
    rw [quiet]
    rfl
  apart _ _ := rfl
  others present _ := present
  own found present := by
    obtain ⟨undergone, stays⟩ := same found present
    exact ⟨_, undergone, present, by rw [found, stays, if_neg Bool.false_ne_true]⟩
  opened absent opens := absurd ((idle absent).symm.trans opens) Bool.false_ne_true
  absent absent _ := absent

theorem Sound.carries_put (sound : directory.Sound) (quiet : instruction.listing? = none)
    (stays : instruction.removes = false)
    (found : directory.find? instruction.symbol = some id)
    (present : directory.market? id = some market)
    (undergone : market.undergo now instruction = .ok after) :
    Carries now instruction directory (directory.put id after) where
  sound := sound.put present (congrArg Listing.name (Market.listing_of_undergo undergone))
  listing _ := by
    rw [quiet]
    rfl
  apart _ _ := rfl
  others there live := by
    rw [market?_put, if_neg fun same => live (found.trans (congrArg some same)), there]
  own again there := by
    obtain rfl := Option.some.inj (found.symm.trans again)
    obtain rfl := Option.some.inj (present.symm.trans there)
    refine ⟨after, undergone, by rw [market?_put, if_pos rfl, present, Option.map_some], ?_⟩
    rw [stays, if_neg Bool.false_ne_true]
    exact found
  opened absent := absurd (found.symm.trans absent) (Option.some_ne_none id)
  absent absent := absurd (found.symm.trans absent) (Option.some_ne_none id)

theorem Sound.carries_configure (sound : directory.Sound) (listing : Listing) :
    Carries now (.configure listing) directory (directory.configure listing) where
  sound := sound.configure listing
  listing symbol := by
    rw [listing_configure, Instruction.listing?, Option.filter_some]
    by_cases own : listing.name = symbol
    · rw [if_pos own.symm, if_pos (decide_eq_true own), Option.getD_some]
    · rw [if_neg (Ne.symm own), if_neg (by simpa using own), Option.getD_none]
  apart _ _ := rfl
  others present _ := present
  own found present := ⟨_, rfl, present, found⟩
  opened _ := nofun
  absent absent _ := absent

theorem Sound.carries_remove (sound : directory.Sound) (removes : instruction.removes = true)
    (removed : directory.remove? instruction.symbol = some (id, later)) :
    Carries now instruction directory later := by
  obtain ⟨quiet, closed⟩ := Instruction.of_removes removes
  have markets : later.market? = directory.market? := by
    unfold market?
    rw [(markets_of_remove? removed).1]
  have absent : later.find? instruction.symbol = none :=
    (find?_of_remove? removed).trans (if_pos rfl)
  exact
    { sound := sound.remove removed
      listing := fun _ => by
        rw [quiet, (markets_of_remove? removed).2]
        rfl
      apart := fun _ apart => (find?_of_remove? removed).trans (if_neg apart)
      others := fun present _ => by rwa [markets]
      own := fun _ present => ⟨_, Market.undergo_of_removes removes, by rwa [markets],
        by rw [removes, if_pos rfl, absent]⟩
      opened := fun _ opens => absurd (closed.symm.trans opens) Bool.false_ne_true
      absent := fun _ _ => absent }

theorem Sound.carries_unremoved (sound : directory.Sound) (removes : instruction.removes = true)
    (kept : directory.remove? instruction.symbol = none) :
    Carries now instruction directory directory := by
  obtain ⟨quiet, closed⟩ := Instruction.of_removes removes
  have absent : directory.find? instruction.symbol = none := Option.map_eq_none_iff.mp kept
  exact sound.carries_still quiet (fun _ => closed) fun found =>
    absurd (found.symm.trans absent) (Option.some_ne_none _)

/-- What is done with a market that was acquired is done with the live one, or with a new
one if there was none. -/
theorem Carries.of_acquire (opens : instruction.opens = true)
    (carries : Carries now instruction (directory.acquire instruction.symbol).2 later) :
    Carries now instruction directory later := by
  cases found : directory.find? instruction.symbol with
  | some id =>
      simp only [acquire, found] at carries
      exact carries
  | none =>
      simp only [acquire, found] at carries
      refine
        { sound := carries.sound
          listing := carries.listing
          apart := fun _ apart =>
            (carries.apart _ apart).trans (find?_openMarket.trans (if_neg apart))
          others := fun present _ => ?_
          own := fun live => absurd (live.symm.trans found) (Option.some_ne_none _)
          opened := fun _ _ => ?_
          absent := fun _ closed => absurd (closed.symm.trans opens) Bool.false_ne_true }
      · -- a market that was there before is not the new one
        have there : _ ≠ (directory.openMarket instruction.symbol).1 := ne_openMarket present
        refine carries.others (by rw [market?_openMarket, if_neg there, present]) ?_
        rw [find?_openMarket, if_pos rfl]
        exact fun same => there (Option.some.inj same).symm
      · obtain ⟨after, undergone, present, live⟩ := carries.own
          (find?_openMarket.trans (if_pos rfl)) (market?_openMarket.trans (if_pos rfl))
        rw [(Instruction.of_opens opens).2, if_neg Bool.false_ne_true] at live
        exact ⟨_, after, market?_openMarket_none _, live, present, undergone⟩

end Steps

end Directory

namespace Exchange

section Steps
variable {exchange later : Exchange} {now : Instant}

theorem directory_onMarket {id : MarketId} {market : Market} {change : Market → Market}
    (present : exchange.directory.market? id = some market) :
    (exchange.onMarket id change).directory = exchange.directory.put id (change market) := by
  rw [onMarket, present]

/-- An order is routed to the market that is live for its symbol then, or dropped if that
is not ready. -/
theorem place_cases {order : Order} {outcome : Option Outcome} {market : Market}
    (placed : exchange.place now order = .ok (outcome, later))
    (present : (exchange.acquire order.symbol).2.directory.market?
      (exchange.acquire order.symbol).1 = some market) :
    (∃ result after, market.ready = true ∧ market.trade now order = .ok (result, after) ∧
        outcome = some result ∧
        later.directory = (exchange.acquire order.symbol).2.directory.put
          (exchange.acquire order.symbol).1 after) ∨
      (market.ready = false ∧ outcome = none ∧ later = (exchange.acquire order.symbol).2) := by
  simp only [place, isReady, present] at placed
  split_ifs at placed with ready
  · simp only [placeAt, present, Desk.place, bind_eq_ok, return_eq_ok] at placed
    obtain ⟨_, ⟨⟨result, after⟩, traded, rfl⟩, same⟩ := placed
    cases same
    exact Or.inl ⟨result, after, ready, traded, rfl, rfl⟩
  · cases placed
    exact Or.inr ⟨by simpa using ready, rfl, rfl⟩

theorem put_of_place {order : Order} {outcome : Option Outcome} {market : Market}
    (placed : exchange.place now order = .ok (outcome, later))
    (present : (exchange.acquire order.symbol).2.directory.market?
      (exchange.acquire order.symbol).1 = some market) :
    ∃ after, market.undergo now (.place order) = .ok after ∧
      later.directory = (exchange.acquire order.symbol).2.directory.put
        (exchange.acquire order.symbol).1 after := by
  rcases place_cases placed present with ⟨_, after, ready, traded, -, same⟩ | ⟨unready, -, rfl⟩
  · refine ⟨after, ?_, same⟩
    rw [Market.undergo, ready, if_pos rfl, traded]
    rfl
  · refine ⟨market, ?_, (Directory.put_self present).symm⟩
    rw [Market.undergo, unready, if_neg Bool.false_ne_true]

theorem put_of_cancelAt {id : MarketId} {request : CancelRequest} {removed : Option Order}
    {market : Market} (cancelled : exchange.cancelAt id request = .ok (removed, later))
    (present : exchange.directory.market? id = some market) :
    ∃ after, market.undergo now (.command (.cancelOrder request)) = .ok after ∧
      later.directory = exchange.directory.put id after := by
  simp only [cancelAt, present, Desk.cancel, bind_eq_ok, return_eq_ok] at cancelled
  obtain ⟨⟨_, after, _⟩, ⟨⟨order, _⟩, done, told⟩, same⟩ := cancelled
  cases same
  -- the market is put back, whether an order was found or not
  refine ⟨after, ?_, rfl⟩
  cases order <;> cases told <;> simp only [Market.undergo, done, bind, Except.bind] <;> rfl

variable (sound : exchange.directory.Sound)
include sound

theorem carries_on_acquired {instruction : Instruction} (opens : instruction.opens = true)
    (works : ∀ {market : Market},
      (exchange.acquire instruction.symbol).2.directory.market?
        (exchange.acquire instruction.symbol).1 = some market →
      ∃ after, market.undergo now instruction = .ok after ∧
        later.directory = (exchange.acquire instruction.symbol).2.directory.put
          (exchange.acquire instruction.symbol).1 after) :
    Directory.Carries now instruction exchange.directory later.directory := by
  have acquired := sound.acquire instruction.symbol
  obtain ⟨found, -, -⟩ := sound.acquire_live instruction.symbol
  obtain ⟨market, present, -, -⟩ := acquired.live? found
  obtain ⟨quiet, stays⟩ := Instruction.of_opens opens
  obtain ⟨after, undergone, same⟩ := works present
  refine .of_acquire opens ?_
  rw [same]
  exact acquired.carries_put quiet stays found present undergone

theorem carries_on_live {instruction : Instruction} {change : Market → Market}
    (quiet : instruction.listing? = none) (stays : instruction.removes = false)
    (closed : instruction.opens = false)
    (works : ∀ market : Market, market.undergo now instruction = .ok (change market)) :
    Directory.Carries now instruction exchange.directory
      (exchange.onLive instruction.symbol change).2.directory := by
  cases found : exchange.directory.find? instruction.symbol with
  | some id =>
      obtain ⟨market, present, -, -⟩ := sound.live? found
      simp only [onLive, found, directory_onMarket present]
      exact sound.carries_put quiet stays found present (works market)
  | none =>
      simp only [onLive, found]
      exact sound.carries_still quiet (fun _ => closed) fun live =>
        absurd (live.symm.trans found) (Option.some_ne_none _)

theorem carries_of_apply {command : Command} {reply : Reply}
    (applied : exchange.apply now command = .ok (reply, later)) :
    Directory.Carries now (.command command) exchange.directory later.directory := by
  cases command with
  | placeOrder order =>
      simp only [apply, bind_eq_ok, return_eq_ok] at applied
      obtain ⟨_, placed, same⟩ := applied
      cases same
      exact carries_on_acquired sound rfl fun present => put_of_place placed present
  | cancelOrder request =>
      simp only [apply, bind_eq_ok, return_eq_ok] at applied
      obtain ⟨_, cancelled, same⟩ := applied
      cases same
      exact carries_on_acquired sound rfl fun present => put_of_cancelAt cancelled present
  | haltSymbol symbol =>
      obtain rfl := congrArg Prod.snd (Except.ok.inj applied)
      exact carries_on_live sound rfl rfl rfl fun _ => rfl
  | resumeSymbol symbol =>
      obtain rfl := congrArg Prod.snd (Except.ok.inj applied)
      exact carries_on_live sound rfl rfl rfl fun _ => rfl
  | markReady symbol =>
      obtain rfl := congrArg Prod.snd (Except.ok.inj applied)
      exact carries_on_acquired sound rfl fun present => ⟨_, rfl, directory_onMarket present⟩
  | removeSymbol symbol =>
      simp only [apply] at applied
      split at applied <;> cases applied
      · exact sound.carries_remove rfl ‹_›
      · exact sound.carries_unremoved rfl ‹_›

theorem carries_of_carryOut {instruction : Instruction}
    (carried : exchange.carryOut now instruction = .ok later) :
    Directory.Carries now instruction exchange.directory later.directory := by
  cases instruction with
  | configure listing =>
      cases carried
      exact sound.carries_configure listing
  | acquire symbol =>
      cases carried
      exact carries_on_acquired sound rfl fun present =>
        ⟨_, rfl, (Directory.put_self present).symm⟩
  | find symbol =>
      cases carried
      exact sound.carries_still rfl (fun _ => rfl) fun _ _ => ⟨rfl, rfl⟩
  | remove symbol =>
      simp only [carryOut] at carried
      split at carried <;> cases carried
      · exact sound.carries_remove rfl ‹_›
      · exact sound.carries_unremoved rfl ‹_›
  | command given =>
      simp only [carryOut, bind_eq_ok, return_eq_ok] at carried
      obtain ⟨_, applied, rfl⟩ := carried
      exact carries_of_apply sound applied
  | place order =>
      simp only [carryOut, bind_eq_ok, return_eq_ok] at carried
      obtain ⟨_, placed, rfl⟩ := carried
      exact carries_on_acquired sound rfl fun present => put_of_place placed present

end Steps

end Exchange

end SpotExchange
