import SpotExchange.Proofs.History
import SpotExchange.Proofs.Instructions

/-!
What became of a directory. A live market was opened by one instruction, on the terms of
its symbol at that time, and every instruction about its symbol since then has worked on
it. A market that was removed is out of reach of all instructions, and its symbol opens a
new one.
-/

namespace SpotExchange

namespace Directory

/-- A market that is there, but that no symbol leads to. -/
structure Retired (directory : Directory) (id : MarketId) (market : Market) : Prop where
  present : directory.market? id = some market
  unlisted : ∀ symbol, directory.find? symbol ≠ some id

namespace Carries

variable {before after : Directory} {now : Instant} {instruction : Instruction} {symbol : String}
  {id : MarketId} {market : Market} (carries : Carries now instruction before after)
include carries

theorem vacant (absent : before.find? symbol = none)
    (closed : instruction.symbol = symbol → instruction.opens = false) :
    after.find? symbol = none := by
  by_cases own : instruction.symbol = symbol
  · subst own
    exact carries.absent absent (closed rfl)
  · exact (carries.apart symbol (Ne.symm own)).trans absent

variable (sound : before.Sound)
include sound

theorem live (found : before.find? symbol = some id) (present : before.market? id = some market)
    (stays : instruction.symbol = symbol → instruction.removes = false) :
    after.find? symbol = some id ∧
      ∃ later, market.undergoAll symbol [(now, instruction)] = .ok later ∧
        after.market? id = some later := by
  by_cases own : instruction.symbol = symbol
  · subst own
    obtain ⟨later, undergone, there, live⟩ := carries.own found present
    rw [stays rfl, if_neg Bool.false_ne_true] at live
    exact ⟨live, later, (Market.undergoAll_own rfl).trans undergone, there⟩
  · exact ⟨(carries.apart symbol (Ne.symm own)).trans found, market, Market.undergoAll_other own,
      carries.others present fun again => own (sound.symbol_unique found again)⟩

theorem retires (removes : instruction.removes = true)
    (found : before.find? instruction.symbol = some id)
    (present : before.market? id = some market) :
    after.find? instruction.symbol = none ∧ Retired after id market := by
  obtain ⟨later, undergone, there, gone⟩ := carries.own found present
  obtain rfl := Except.ok.inj ((Market.undergo_of_removes removes).symm.trans undergone)
  rw [removes, if_pos rfl] at gone
  refine ⟨gone, there, fun symbol live => ?_⟩
  by_cases own : symbol = instruction.symbol
  · rw [own, gone] at live
    cases live
  · exact own (sound.symbol_unique found ((carries.apart symbol own).symm.trans live))

/-- A live market was live before, and not removed, or else it was just opened. -/
theorem live_or_opened (live : after.find? symbol = some id) :
    (before.find? symbol = some id ∧
      (instruction.symbol = symbol → instruction.removes = false)) ∨
    (before.find? symbol = none ∧ instruction.symbol = symbol ∧ instruction.opens = true) := by
  by_cases own : instruction.symbol = symbol
  · subst own
    cases found : before.find? instruction.symbol with
    | some other =>
        obtain ⟨market, present, -⟩ := sound.placed found
        obtain ⟨_, -, -, kept⟩ := carries.own found present
        rw [live] at kept
        split_ifs at kept with removes
        cases kept
        exact Or.inl ⟨rfl, fun _ => by simpa using removes⟩
    | none =>
        cases opens : instruction.opens with
        | true => exact Or.inr ⟨rfl, rfl, rfl⟩
        | false =>
            exact absurd (live.symm.trans (carries.absent found opens)) (Option.some_ne_none _)
  · exact Or.inl
      ⟨(carries.apart symbol (Ne.symm own)).symm.trans live, fun same => absurd same own⟩

theorem retired (away : Retired before id market) : Retired after id market where
  present := carries.others away.present (away.unlisted _)
  unlisted symbol live := by
    rcases carries.live_or_opened sound live with ⟨found, -⟩ | ⟨absent, rfl, opens⟩
    · exact away.unlisted symbol found
    · -- what is opened was not there before, and this market was
      obtain ⟨new, _, fresh, found, -⟩ := carries.opened absent opens
      obtain rfl := Option.some.inj (found.symm.trans live)
      exact absurd (away.present.symm.trans fresh) (Option.some_ne_none _)

end Carries

end Directory

namespace Exchange

variable {exchange last : Exchange} {instructions more : Instructions} {symbol : String}
  {id : MarketId} {market : Market}

theorem carryOutAll_append : exchange.carryOutAll (instructions ++ more) = .ok last ↔
    ∃ middle, exchange.carryOutAll instructions = .ok middle ∧
      middle.carryOutAll more = .ok last := by
  simp only [carryOutAll, List.foldlM_append, bind_eq_ok]

theorem carryOutAll_cons {now : Instant} {instruction : Instruction} :
    exchange.carryOutAll ((now, instruction) :: more) = .ok last ↔
      ∃ middle, exchange.carryOut now instruction = .ok middle ∧
        middle.carryOutAll more = .ok last := by
  simp only [carryOutAll, List.foldlM_cons, bind_eq_ok]

theorem carryOutAll_induction {motive : Instructions → Exchange → Prop}
    (sound : exchange.directory.Sound) (start : motive [] exchange)
    (step : ∀ {earlier : Instructions} {now : Instant} {instruction : Instruction}
      {middle later : Exchange}, exchange.carryOutAll earlier = .ok middle →
        motive earlier middle → middle.directory.Sound →
        middle.carryOut now instruction = .ok later →
        Directory.Carries now instruction middle.directory later.directory →
          motive (earlier ++ [(now, instruction)]) later)
    (run : exchange.carryOutAll instructions = .ok last) :
    last.directory.Sound ∧ motive instructions last := by
  -- from the last instruction back, so that a step knows the run before it
  induction instructions using List.reverseRecOn generalizing last with
  | nil =>
      cases run
      exact ⟨sound, start⟩
  | append_singleton earlier entry ih =>
      obtain ⟨middle, before, rest⟩ := carryOutAll_append.mp run
      obtain ⟨_, carried, same⟩ := carryOutAll_cons.mp rest
      cases same
      obtain ⟨formed, kept⟩ := ih before
      have carries := carries_of_carryOut formed carried
      exact ⟨carries.sound, step before kept formed carried carries⟩

theorem sound_of_carryOutAll (sound : exchange.directory.Sound)
    (run : exchange.carryOutAll instructions = .ok last) : last.directory.Sound :=
  (carryOutAll_induction (motive := fun _ _ => True) sound trivial
    (fun _ _ _ _ _ => trivial) run).1

theorem vacant_of_carryOutAll (sound : exchange.directory.Sound)
    (run : exchange.carryOutAll instructions = .ok last)
    (closed : ∀ step ∈ instructions, step.2.symbol = symbol → step.2.opens = false)
    (absent : exchange.directory.find? symbol = none) : last.directory.find? symbol = none := by
  refine (carryOutAll_induction (motive := fun earlier middle =>
    (∀ step ∈ earlier, step.2.symbol = symbol → step.2.opens = false) →
      middle.directory.find? symbol = none) sound (fun _ => absent) ?_ run).2 closed
  intro earlier now instruction middle later _ kept _ _ carries closed
  simp only [List.forall_mem_append, List.forall_mem_singleton] at closed
  exact carries.vacant (kept closed.1) closed.2

theorem live_of_carryOutAll (sound : exchange.directory.Sound)
    (run : exchange.carryOutAll instructions = .ok last)
    (stays : ∀ step ∈ instructions, step.2.symbol = symbol → step.2.removes = false)
    (found : exchange.directory.find? symbol = some id)
    (present : exchange.directory.market? id = some market) :
    last.directory.find? symbol = some id ∧ ∃ later,
      market.undergoAll symbol instructions = .ok later ∧
      last.directory.market? id = some later := by
  refine (carryOutAll_induction (motive := fun earlier middle =>
    (∀ step ∈ earlier, step.2.symbol = symbol → step.2.removes = false) →
      middle.directory.find? symbol = some id ∧ ∃ later,
        market.undergoAll symbol earlier = .ok later ∧ middle.directory.market? id = some later)
    sound (fun _ => ⟨found, market, rfl, present⟩) ?_ run).2 stays
  intro earlier now instruction middle later _ kept formed _ carries stays
  simp only [List.forall_mem_append, List.forall_mem_singleton] at stays
  obtain ⟨live, between, undergone, there⟩ := kept stays.1
  obtain ⟨still, after, changed, final⟩ := carries.live formed live there stays.2
  exact ⟨still, after, Market.undergoAll_append.mpr ⟨between, undergone, changed⟩, final⟩

/-- A market that no symbol leads to any more is left alone for good. -/
theorem retired_of_carryOutAll (sound : exchange.directory.Sound)
    (run : exchange.carryOutAll instructions = .ok last)
    (away : exchange.directory.Retired id market) : last.directory.Retired id market :=
  (carryOutAll_induction (motive := fun _ middle => middle.directory.Retired id market) sound away
    (fun _ kept formed _ carries => carries.retired formed kept) run).2

end Exchange

/-- The terms of a symbol after instructions: the listing that was last configured for it,
or else the one of the settings, or else the default one. -/
def Settings.terms (settings : Settings) (instructions : Instructions) (symbol : String) :
    Listing :=
  let configured := instructions.reverse.filterMap fun step => step.2.listing?
  let own (listing : Listing) : Bool := listing.name = symbol
  (configured.find? own <|> settings.listings.find? own).getD (settings.defaultListing symbol)

section Terms
variable {settings : Settings} {symbol : String}

theorem Settings.terms_snoc (settings : Settings) (earlier : Instructions) (now : Instant)
    (instruction : Instruction) (symbol : String) :
    settings.terms (earlier ++ [(now, instruction)]) symbol =
      (instruction.listing?.filter fun listing => listing.name = symbol).getD
        (settings.terms earlier symbol) := by
  cases instruction with
  | configure listing =>
      by_cases own : listing.name = symbol <;>
        simp [terms, Instruction.listing?, Option.filter_some, own]
  | acquire | find | remove | command | place => simp [terms, Instruction.listing?]

theorem Settings.nodup_of_listingFault? {seen : List String} {listings : List Listing}
    (fine : listingFault? seen listings = none) :
    (listings.map Listing.name).Nodup ∧ ∀ listing ∈ listings, listing.name ∉ seen := by
  induction listings generalizing seen with
  | nil => exact ⟨.nil, nofun⟩
  | cons listing rest ih =>
      rw [listingFault?] at fine
      split_ifs at fine with _ new
      obtain ⟨apart, unseen⟩ := ih fine
      rw [List.map_cons, List.nodup_cons, List.forall_mem_cons]
      refine ⟨⟨fun again => ?_, apart⟩, new, fun other member =>
        fun there => unseen other member (List.mem_cons_of_mem _ there)⟩
      obtain ⟨other, member, same⟩ := List.mem_map.mp again
      exact unseen other member (same ▸ List.mem_cons_self)

theorem Directory.listing_foldl_configure {listings : List Listing} {directory : Directory}
    (apart : (listings.map Listing.name).Nodup) :
    (listings.foldl configure directory).listing symbol =
      (listings.find? fun listing => listing.name = symbol).getD (directory.listing symbol) := by
  induction listings generalizing directory with
  | nil => rfl
  | cons listing rest ih =>
      rw [List.map_cons, List.nodup_cons] at apart
      rw [List.foldl_cons, ih apart.2, listing_configure, List.find?_cons]
      by_cases own : listing.name = symbol
      · -- no other listing has this name, so none takes the place of this one
        have none : (rest.find? fun other => other.name = symbol) = none :=
          List.find?_eq_none.mpr fun other member same => apart.1
            (List.mem_map.mpr ⟨other, member, (of_decide_eq_true same).trans own.symm⟩)
        rw [none, if_pos own.symm, decide_eq_true own]
        rfl
      · rw [if_neg (Ne.symm own), decide_eq_false own]

theorem Directory.find?_ofSettings (settings : Settings) (symbol : String) :
    (ofSettings settings).find? symbol = none := by
  have kept (listings : List Listing) (directory : Directory) :
      (listings.foldl configure directory).live = directory.live := by
    induction listings generalizing directory with
    | nil => rfl
    | cons listing rest ih => exact ih _
  rw [find?, ofSettings, kept]
  rfl

theorem Directory.listing_ofSettings (fine : settings.fault? = none) :
    (ofSettings settings).listing symbol = settings.terms [] symbol := by
  unfold Settings.fault? at fine
  split_ifs at fine
  exact listing_foldl_configure (Settings.nodup_of_listingFault? fine).1

/-- The terms in force are those that the next market is opened on. -/
theorem Exchange.listing_of_carryOutAll {sink : Sink} {instructions : Instructions}
    {last : Exchange} (fine : settings.fault? = none)
    (run : (ofSettings settings sink).carryOutAll instructions = .ok last) :
    last.directory.listing symbol = settings.terms instructions symbol := by
  refine (carryOutAll_induction (motive := fun earlier middle =>
    middle.directory.listing symbol = settings.terms earlier symbol)
    (Directory.Built.ofSettings settings).sound (Directory.listing_ofSettings fine) ?_ run).2
  intro earlier now instruction middle later _ kept _ _ carries
  rw [carries.listing, Settings.terms_snoc, kept]

end Terms

theorem Market.trade_ne_symbolMismatch {market later : Market} {now : Instant} {order : Order}
    {outcome : Outcome} (own : market.symbol = order.symbol)
    (traded : market.trade now order = .ok (outcome, later)) :
    outcome ≠ .refused .symbolMismatch := by
  rintro rfl
  rcases trade_cases traded with ⟨reason, same, checked, -⟩ | ⟨_, _, _, processed, -⟩
  · cases same
    unfold refusal? at checked
    split_ifs at checked with halted mismatch
    · cases checked
    · exact mismatch own.symm
    · cases checked
    all_goals
      obtain ⟨_, -, rest⟩ := (bind_eq_ok _ _ _).mp checked
      split_ifs at rest <;> cases rest
  · cases processed

namespace Exchange

/-- How a market came to be the live one of a symbol: some instruction opened it, where there
was none, and then all instructions about the symbol have worked on it, from that one on. It
started without orders, on the terms of the symbol at that time. -/
def Opened (settings : Settings) (sink : Sink) (instructions : Instructions) (symbol : String)
    (id : MarketId) (market : Market) : Prop :=
  ∃ before now instruction after earlier later,
    instructions = before ++ (now, instruction) :: after ∧
    (ofSettings settings sink).carryOutAll before = .ok earlier ∧
    earlier.directory.market? id = none ∧
    earlier.carryOut now instruction = .ok later ∧
    later.directory.find? symbol = some id ∧
    market.listing = settings.terms before symbol ∧
    (Market.ofListing (settings.terms before symbol)).undergoAll symbol
      ((now, instruction) :: after) = .ok market

/-- Whoever asks for a symbol opens a market that was not there, without orders and on
these terms. -/
def OpensAnew (exchange : Exchange) (symbol : String) (listing : Listing) : Prop :=
  ∃ id later, exchange.acquire symbol = (id, later) ∧
    exchange.directory.market? id = none ∧
    later.directory.find? symbol = some id ∧
    later.directory.market? id = some (.ofListing listing)

/-- What there is to say of an exchange after instructions. -/
structure Registers (settings : Settings) (sink : Sink) (instructions : Instructions)
    (exchange : Exchange) : Prop where
  /-- A live market trades its symbol, and its terms are from when it was opened. -/
  opened : ∀ {symbol id}, exchange.directory.find? symbol = some id →
    ∃ market, exchange.directory.market? id = some market ∧ market.symbol = symbol ∧
      Opened settings sink instructions symbol id market
  /-- Without a removal it is found again, as the instructions about it have left it. -/
  lasting : ∀ {symbol id market more last}, exchange.directory.find? symbol = some id →
    exchange.directory.market? id = some market → exchange.carryOutAll more = .ok last →
    (∀ step ∈ more, step.2.symbol = symbol → step.2.removes = false) →
      last.directory.find? symbol = some id ∧ last.acquire symbol = (id, last) ∧
      ∃ later, market.undergoAll symbol more = .ok later ∧ last.directory.market? id = some later
  /-- A symbol without a market gets one on the terms in force. -/
  fresh : ∀ {symbol}, exchange.directory.find? symbol = none →
    exchange.OpensAnew symbol (settings.terms instructions symbol)
  /-- A market that was removed is what it was, whatever comes, and is never live again. -/
  retired : ∀ {now removal id market middle more last}, removal.removes = true →
    exchange.directory.find? removal.symbol = some id →
    exchange.directory.market? id = some market →
    exchange.carryOut now removal = .ok middle → middle.carryOutAll more = .ok last →
      last.directory.Retired id market
  /-- Its symbol has no market until it opens a new one, on the terms in force then. -/
  replaced : ∀ {now removal middle more last}, removal.removes = true →
    exchange.carryOut now removal = .ok middle → middle.carryOutAll more = .ok last →
    (∀ step ∈ more, step.2.symbol = removal.symbol → step.2.opens = false) →
      last.directory.find? removal.symbol = none ∧
      last.OpensAnew removal.symbol
        (settings.terms (instructions ++ (now, removal) :: more) removal.symbol)
  /-- No order that is routed meets a market of another symbol. -/
  routed : ∀ {now order outcome later}, exchange.place now order = .ok (outcome, later) →
    outcome ≠ some (.refused .symbolMismatch)

section Registering
variable {settings : Settings} {sink : Sink} {instructions : Instructions}
  {exchange last : Exchange} {symbol : String} {id : MarketId} {market : Market}

theorem Opened.snoc {now : Instant} {instruction : Instruction} {later : Market}
    (opened : Opened settings sink instructions symbol id market)
    (undergone : market.undergoAll symbol [(now, instruction)] = .ok later) :
    Opened settings sink (instructions ++ [(now, instruction)]) symbol id later := by
  obtain ⟨before, time, first, after, earlier, middle, rfl, run, absent, carried, found, same,
    whole⟩ := opened
  refine ⟨before, time, first, after ++ [(now, instruction)], earlier, middle,
    by rw [List.append_assoc, List.cons_append], run, absent, carried, found,
    (Market.listing_of_undergoAll undergone).trans same, ?_⟩
  rw [← List.cons_append]
  exact Market.undergoAll_append.mpr ⟨market, whole, undergone⟩

theorem opened_of_carryOutAll (fine : settings.fault? = none)
    (run : (ofSettings settings sink).carryOutAll instructions = .ok exchange) :
    ∀ {symbol id market}, exchange.directory.find? symbol = some id →
      exchange.directory.market? id = some market →
        Opened settings sink instructions symbol id market := by
  refine (carryOutAll_induction (motive := fun earlier middle => ∀ {symbol id market},
    middle.directory.find? symbol = some id → middle.directory.market? id = some market →
      Opened settings sink earlier symbol id market)
    (Directory.Built.ofSettings settings).sound ?_ ?_ run).2
  · intro symbol id market live
    exact absurd (live.symm.trans (Directory.find?_ofSettings settings symbol))
      (Option.some_ne_none _)
  · intro earlier now instruction middle later before kept formed carried carries symbol id market
      live present
    rcases carries.live_or_opened formed live with ⟨found, stays⟩ | ⟨absent, rfl, opens⟩
    · obtain ⟨market', there, -⟩ := formed.placed found
      obtain ⟨-, after, undergone, same⟩ := carries.live formed found there stays
      obtain rfl := Option.some.inj (same.symm.trans present)
      exact (kept found there).snoc undergone
    · -- the instruction that opens the market is the first one it undergoes
      obtain ⟨new, after, missing, found, there, undergone⟩ := carries.opened absent opens
      obtain rfl := Option.some.inj (found.symm.trans live)
      obtain rfl := Option.some.inj (there.symm.trans present)
      rw [listing_of_carryOutAll fine before] at undergone
      exact ⟨earlier, now, instruction, [], middle, later, rfl, before, missing, carried, found,
        Market.listing_of_undergo undergone, (Market.undergoAll_own rfl).trans undergone⟩

theorem opensAnew_of_carryOutAll (fine : settings.fault? = none)
    (run : (ofSettings settings sink).carryOutAll instructions = .ok exchange)
    (absent : exchange.directory.find? symbol = none) :
    exchange.OpensAnew symbol (settings.terms instructions symbol) := by
  have anew : exchange.acquire symbol = ((exchange.directory.openMarket symbol).1,
      { exchange with directory := (exchange.directory.openMarket symbol).2 }) := by
    simp only [acquire, Directory.acquire, absent]
  refine ⟨_, _, anew, Directory.market?_openMarket_none symbol,
    Directory.find?_openMarket.trans (if_pos rfl), ?_⟩
  rw [← listing_of_carryOutAll fine run]
  exact Directory.market?_openMarket.trans (if_pos rfl)

theorem place_ne_symbolMismatch (sound : exchange.directory.Sound) {now : Instant} {order : Order}
    {outcome : Option Outcome} (placed : exchange.place now order = .ok (outcome, last)) :
    outcome ≠ some (.refused .symbolMismatch) := by
  obtain ⟨found, -, -⟩ := sound.acquire_live order.symbol
  obtain ⟨market, present, -, trades⟩ := (sound.acquire order.symbol).live? found
  rcases place_cases placed present with ⟨_, _, -, traded, rfl, -⟩ | ⟨-, rfl, -⟩
  · exact fun mismatch => Market.trade_ne_symbolMismatch trades traded (Option.some.inj mismatch)
  · exact nofun

end Registering

def sampleSettings : Settings :=
  { Settings.default with listings := [{ Listing.named "coin" with maxDepth := 5 }] }

def sampleInstructions : Instructions :=
  [(default, .place (History.sampleAsk "ask")),
    (default, .configure { Listing.named "coin" with maxDepth := 3 }),
    (default, .find "coin"),
    (default, .command (.removeSymbol "coin")),
    (default, .acquire "coin")]

end Exchange

end SpotExchange
