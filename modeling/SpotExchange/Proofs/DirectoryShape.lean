import SpotExchange.Exchange
import Mathlib.Data.List.Basic

/-!
The shape of a directory: a live symbol names a market that is there and trades that
symbol, so no two symbols share one, and every listing is the one of its symbol. What
is done for one symbol leaves the live market of every other as it is.
-/

namespace SpotExchange.Directory

/-- The directories that come about: they know the listings of some settings and more
that were configured, their markets are opened and removed, and whatever happens to a
market, it keeps its listing. -/
inductive Built : Directory → Prop
  | ofSettings (settings : Settings) : Built (.ofSettings settings)
  | configure {directory : Directory} (built : Built directory) (listing : Listing) :
      Built (directory.configure listing)
  | acquire {directory : Directory} (built : Built directory) (symbol : String) :
      Built (directory.acquire symbol).2
  | remove {directory later : Directory} {id : MarketId} {symbol : String}
      (built : Built directory) (removed : directory.remove? symbol = some (id, later)) :
      Built later
  | put {directory : Directory} {id : MarketId} {market later : Market} (built : Built directory)
      (found : directory.market? id = some market) (same : later.listing = market.listing) :
      Built (directory.put id later)

def live? (directory : Directory) (symbol : String) : Option Market :=
  (directory.find? symbol).bind directory.market?

structure Sound (directory : Directory) : Prop where
  named : ∀ symbol, (directory.listing symbol).name = symbol
  placed : ∀ {symbol id}, directory.find? symbol = some id →
    ∃ market, directory.market? id = some market ∧ market.symbol = symbol

section Lookups
variable {directory later : Directory} {symbol other : String} {id : MarketId} {market : Market}

theorem market?_put (other : MarketId) : (directory.put id market).market? other =
    if id = other then (directory.market? id).map fun _ => market
    else directory.market? other := by
  unfold market? put
  rw [Array.getElem?_setIfInBounds]
  by_cases same : id = other
  · subst same
    by_cases inside : id.index < directory.markets.size <;> simp [inside]
  · have apart : id.index ≠ other.index := fun index => same (by cases id; cases other; simp_all)
    simp [same, apart]

theorem put_self (present : directory.market? id = some market) :
    directory.put id market = directory := by
  obtain ⟨inside, same⟩ := Array.getElem?_eq_some_iff.mp present
  rw [put, ← same, Array.setIfInBounds_def, dif_pos inside, Array.set_getElem_self]

theorem lookup_entry {α : Type} (known : String) (value : α) (rest : List (String × α)) :
    ((known, value) :: rest).lookup other =
      if other = known then some value else rest.lookup other := by
  rw [List.lookup_cons]
  by_cases same : other = known
  · simp [same]
  · simp [same, beq_false_of_ne]

theorem lookup_filter_ne {α : Type} (entries : List (String × α)) :
    (entries.filter fun entry => entry.1 ≠ symbol).lookup other =
      if other = symbol then none else entries.lookup other := by
  induction entries with
  | nil => simp
  | cons entry rest ih =>
      obtain ⟨known, value⟩ := entry
      rw [lookup_entry]
      by_cases own : known = symbol
      · subst own
        rw [List.filter_cons_of_neg (by simp), ih]
        split <;> rfl
      · rw [List.filter_cons_of_pos (by simpa using own), lookup_entry, ih]
        by_cases same : other = known
        · simp [same, own]
        · simp [same]

theorem find?_openMarket : (directory.openMarket symbol).2.find? other =
    if other = symbol then some (directory.openMarket symbol).1 else directory.find? other :=
  lookup_entry _ _ _

theorem listing_configure (listing : Listing) : (directory.configure listing).listing symbol =
    if symbol = listing.name then listing else directory.listing symbol := by
  rw [Directory.listing, configure, lookup_entry]
  split <;> rfl

theorem market?_openMarket : (directory.openMarket symbol).2.market? id =
    if id = (directory.openMarket symbol).1 then some (.ofListing (directory.listing symbol))
    else directory.market? id := by
  have pushed : (directory.markets.push (.ofListing (directory.listing symbol)))[id.index]? = _ :=
    Array.getElem?_push
  by_cases last : id = (directory.openMarket symbol).1
  · subst last
    rw [if_pos rfl]
    exact pushed.trans (if_pos rfl)
  · have apart : id.index ≠ directory.markets.size := fun same => last (congrArg MarketId.mk same)
    rw [if_neg last]
    exact pushed.trans (if_neg apart)

theorem ne_openMarket (present : directory.market? id = some market) :
    id ≠ (directory.openMarket symbol).1 := by
  rintro rfl
  simp [market?, openMarket] at present

theorem market?_openMarket_none (symbol : String) :
    directory.market? (directory.openMarket symbol).1 = none :=
  Option.eq_none_iff_forall_ne_some.mpr fun _ present => ne_openMarket present rfl

theorem find?_of_remove? (removed : directory.remove? symbol = some (id, later)) :
    later.find? other = if other = symbol then none else directory.find? other := by
  obtain ⟨_, -, same⟩ := Option.map_eq_some_iff.mp removed
  cases same
  exact lookup_filter_ne directory.live

theorem markets_of_remove? (removed : directory.remove? symbol = some (id, later)) :
    later.markets = directory.markets ∧ later.listing = directory.listing := by
  obtain ⟨_, -, same⟩ := Option.map_eq_some_iff.mp removed
  cases same
  exact ⟨rfl, rfl⟩

end Lookups

section Shape
variable {directory later : Directory} {symbol other : String} {id : MarketId} {market : Market}

theorem Sound.live? (sound : directory.Sound) (found : directory.find? symbol = some id) :
    ∃ market, directory.market? id = some market ∧ directory.live? symbol = some market ∧
      market.symbol = symbol := by
  obtain ⟨market, present, trades⟩ := sound.placed found
  exact ⟨market, present, by rw [Directory.live?, found, Option.bind_some, present], trades⟩

theorem Sound.symbol_unique (sound : directory.Sound) (found : directory.find? symbol = some id)
    (again : directory.find? other = some id) : other = symbol := by
  obtain ⟨market, present, trades⟩ := sound.placed found
  obtain ⟨same, there, likewise⟩ := sound.placed again
  rw [there] at present
  cases present
  exact likewise.symm.trans trades

theorem Sound.configure (sound : directory.Sound) (listing : Listing) :
    (directory.configure listing).Sound where
  named := by
    intro symbol
    rw [listing_configure]
    split
    · rename_i own
      exact own.symm
    · exact sound.named symbol
  placed := sound.placed

theorem Sound.put {before : Market} (sound : directory.Sound)
    (found : directory.market? id = some before) (same : market.symbol = before.symbol) :
    (directory.put id market).Sound where
  named := sound.named
  placed := by
    intro symbol other live
    obtain ⟨present, there, trades⟩ := sound.placed live
    rw [market?_put]
    by_cases here : id = other
    · subst here
      rw [found] at there
      cases there
      exact ⟨market, by rw [if_pos rfl, found, Option.map_some], same.trans trades⟩
    · exact ⟨present, by rw [if_neg here, there], trades⟩

theorem Sound.openMarket (sound : directory.Sound) (symbol : String) :
    (directory.openMarket symbol).2.Sound where
  named := sound.named
  placed := by
    intro other id live
    rw [find?_openMarket] at live
    rw [market?_openMarket]
    split_ifs at live with own
    · cases live
      exact ⟨_, if_pos rfl, (sound.named symbol).trans own.symm⟩
    · obtain ⟨market, there, trades⟩ := sound.placed live
      exact ⟨market, by rw [if_neg (ne_openMarket there), there], trades⟩

theorem Sound.acquire (sound : directory.Sound) (symbol : String) :
    (directory.acquire symbol).2.Sound := by
  unfold Directory.acquire
  split
  · exact sound
  · exact sound.openMarket symbol

theorem Sound.remove (sound : directory.Sound)
    (removed : directory.remove? symbol = some (id, later)) : later.Sound where
  named := by
    rw [(markets_of_remove? removed).2]
    exact sound.named
  placed := by
    intro other id live
    rw [find?_of_remove? removed] at live
    rw [market?, (markets_of_remove? removed).1]
    split_ifs at live
    exact sound.placed live

theorem Built.sound (built : Built directory) : directory.Sound := by
  induction built with
  | ofSettings settings =>
      have known (listings : List Listing) (directory : Directory) (sound : directory.Sound) :
          (listings.foldl Directory.configure directory).Sound := by
        induction listings generalizing directory with
        | nil => exact sound
        | cons listing rest ih => exact ih _ (sound.configure listing)
      exact known _ _ ⟨fun _ => rfl, nofun⟩
  | configure _ listing sound => exact sound.configure listing
  | acquire _ symbol sound => exact sound.acquire symbol
  | remove _ removed sound => exact sound.remove removed
  | put _ found same sound => exact sound.put found (congrArg Listing.name same)

theorem Sound.live?_put (sound : directory.Sound) (found : directory.find? symbol = some id)
    (market : Market) (other : String) : (directory.put id market).live? other =
      if other = symbol then some market else directory.live? other := by
  have kept : (directory.put id market).find? other = directory.find? other := rfl
  obtain ⟨_, there, -⟩ := sound.placed found
  rw [Directory.live?, Directory.live?, kept]
  by_cases own : other = symbol
  · subst own
    rw [if_pos rfl, found, Option.bind_some, market?_put, if_pos rfl, there, Option.map_some]
  · rw [if_neg own]
    cases live : directory.find? other with
    | none => rfl
    | some next =>
        have apart : id ≠ next := by
          rintro rfl
          exact own (sound.symbol_unique found live)
        rw [Option.bind_some, Option.bind_some, market?_put, if_neg apart]

theorem Sound.live?_openMarket (sound : directory.Sound) (symbol : String) :
    (directory.openMarket symbol).2.live? other =
      if other = symbol then some (.ofListing (directory.listing symbol))
      else directory.live? other := by
  rw [Directory.live?, Directory.live?, find?_openMarket]
  by_cases own : other = symbol
  · rw [if_pos own, if_pos own, Option.bind_some, market?_openMarket, if_pos rfl]
  · rw [if_neg own, if_neg own]
    cases live : directory.find? other with
    | none => rfl
    | some next =>
        obtain ⟨_, there, -⟩ := sound.placed live
        rw [Option.bind_some, Option.bind_some, market?_openMarket, if_neg (ne_openMarket there)]

/-- Whoever asks for a symbol's market finds the live one, or a new one on the terms
that are configured; other symbols notice nothing. -/
theorem Sound.acquire_live (sound : directory.Sound) (symbol : String) :
    (directory.acquire symbol).2.find? symbol = some (directory.acquire symbol).1 ∧
      (directory.acquire symbol).2.listing = directory.listing ∧
      ∀ other, (directory.acquire symbol).2.live? other =
        if other = symbol then
          some ((directory.live? symbol).getD (.ofListing (directory.listing symbol)))
        else directory.live? other := by
  cases found : directory.find? symbol with
  | some id =>
      obtain ⟨market, -, live, -⟩ := sound.live? found
      simp only [Directory.acquire, found]
      refine ⟨trivial, trivial, fun other => ?_⟩
      split
      · rename_i own
        rw [own, live, Option.getD_some]
      · rfl
  | none =>
      simp only [Directory.acquire, found]
      refine ⟨find?_openMarket.trans (if_pos rfl), rfl, fun other => ?_⟩
      have absent : directory.live? symbol = none := by
        rw [Directory.live?, found, Option.bind_none]
      rw [sound.live?_openMarket, absent, Option.getD_none]

theorem live?_of_remove? (removed : directory.remove? symbol = some (id, later))
    (other : String) :
    later.live? other = if other = symbol then none else directory.live? other := by
  rw [Directory.live?, Directory.live?, find?_of_remove? removed]
  split
  · rfl
  · unfold market?
    rw [(markets_of_remove? removed).1]

end Shape

end SpotExchange.Directory
