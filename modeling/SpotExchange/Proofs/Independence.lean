import SpotExchange.Proofs.TradingPit

/-!
Symbols are independent. A run of an exchange is, for each symbol, the run of the pit of
that symbol over the requests that name it. So it makes no difference how requests for
some symbols are woven in between those for others.
-/

namespace SpotExchange

/-- A list that is woven of two others, each of which keeps its order. -/
inductive Weaves {α : Type} : List α → List α → List α → Prop
  | nil : Weaves [] [] []
  | first (item : α) {rest other whole : List α} (weaves : Weaves rest other whole) :
      Weaves (item :: rest) other (item :: whole)
  | second (item : α) {rest other whole : List α} (weaves : Weaves other rest whole) :
      Weaves other (item :: rest) (item :: whole)

section Weaving
variable {α : Type} {first second whole : List α}

theorem Weaves.symm (weaves : Weaves first second whole) : Weaves second first whole := by
  induction weaves with
  | nil => exact .nil
  | first item _ ih => exact .second item ih
  | second item _ ih => exact .first item ih

theorem Weaves.perm (weaves : Weaves first second whole) : whole.Perm (first ++ second) := by
  induction weaves with
  | nil => exact .nil
  | first item _ ih => exact ih.cons item
  | second item _ ih => exact (ih.cons item).trans List.perm_middle.symm

theorem Weaves.filter_first (weaves : Weaves first second whole) {keeps : α → Bool}
    (none : ∀ item ∈ second, keeps item = false) : whole.filter keeps = first.filter keeps := by
  induction weaves with
  | nil => rfl
  | first item _ ih => rw [List.filter_cons, List.filter_cons, ih none]
  | second item _ ih =>
      rw [List.filter_cons_of_neg (by simp [none item List.mem_cons_self]),
        ih fun other member => none other (List.mem_cons_of_mem _ member)]

end Weaving

/-- The requests for a symbol. -/
def Request.about (symbol : String) (requests : List Request) : List Request :=
  requests.filter fun request => request.symbol? = some symbol

/-- What was returned to the requests for a symbol, without dates. -/
def Log.about (symbol : String) (log : Log) : Log :=
  (log.filter fun entry => entry.1.symbol? = some symbol).map fun entry =>
    (entry.1, entry.2.undated)

def Pit.serveAll (pit : Pit) : List Request → Except Overflow (Log × Pit)
  | [] => .ok ([], pit)
  | request :: rest => do
    let (response, pit) ← pit.serve default request
    let (log, pit) ← pit.serveAll rest
    return ((request, response) :: log, pit)

theorem Pit.serveAll_cons {pit last : Pit} {request : Request} {rest : List Request} {log : Log} :
    pit.serveAll (request :: rest) = .ok (log, last) ↔
      ∃ response middle later, pit.serve default request = .ok (response, middle) ∧
        middle.serveAll rest = .ok (later, last) ∧ log = (request, response) :: later := by
  simp only [serveAll, bind_eq_ok, return_eq_ok]
  constructor
  · rintro ⟨⟨response, middle⟩, first, ⟨later, final⟩, others, same⟩
    cases same
    exact ⟨response, middle, later, first, others, rfl⟩
  · rintro ⟨response, middle, later, first, others, rfl⟩
    exact ⟨(response, middle), first, (later, last), others, rfl⟩

namespace Exchange

section Tracking
variable {symbol : String} {exchange later : Exchange} {pit : Pit} {α β : Type} {image : α → β}

theorem Tracks.of_ok {value : α} {own : Except Overflow (β × Pit)}
    (tracks : Tracks symbol exchange image (.ok (value, later)) own) :
    ∃ pit, own = .ok (image value, pit) ∧ Moves symbol exchange pit later := by
  cases tracks with
  | done value moves => exact ⟨_, rfl, moves⟩

theorem Tracks.of_pit_ok {value : β} {result : Except Overflow (α × Exchange)}
    (tracks : Tracks symbol exchange image result (.ok (value, pit))) :
    ∃ whole later, result = .ok (whole, later) ∧ Moves symbol exchange pit later := by
  cases tracks with
  | done whole moves => exact ⟨whole, _, rfl, moves⟩

end Tracking

/-- A run is, for each symbol, the run of its pit over the requests that name it. -/
theorem Sound.serveAll_pit {exchange last : Exchange} (sound : exchange.Sound)
    {requests : List (Instant × Request)} {log : Log}
    (explicit : ∀ request ∈ requests.map Prod.snd, request.Explicit)
    (run : exchange.serveAll requests = .ok (log, last)) (symbol : String) :
    (exchange.pit symbol).serveAll (Request.about symbol (requests.map Prod.snd)) =
      .ok (log.about symbol, last.pit symbol) := by
  induction requests generalizing exchange log with
  | nil =>
      cases run
      rfl
  | cons entry rest ih =>
      obtain ⟨now, request⟩ := entry
      obtain ⟨response, middle, later, served, others, rfl⟩ := serveAll_cons.mp run
      obtain ⟨named, names, tracks⟩ :=
        serve_tracks sound now (explicit request List.mem_cons_self)
      rw [served] at tracks
      obtain ⟨pit, own, moves⟩ := tracks.of_ok
      have tail := ih moves.sound
        (fun request member => explicit request (List.mem_cons_of_mem _ member)) others
      by_cases here : named = symbol
      · subst here
        rw [moves.own] at tail
        simp only [Request.about, Log.about, List.map_cons, List.filter_cons, names,
          decide_true, ↓reduceIte]
        exact Pit.serveAll_cons.mpr ⟨_, pit, _, own, tail, rfl⟩
      · have apart : symbol ≠ named := Ne.symm here
        rw [moves.others symbol apart] at tail
        simpa [Request.about, Log.about, names, here] using tail

theorem Sound.serveAll_of_pits {exchange : Exchange} (sound : exchange.Sound)
    {requests : List (Instant × Request)}
    (explicit : ∀ request ∈ requests.map Prod.snd, request.Explicit)
    (runs : ∀ symbol, ∃ result,
      (exchange.pit symbol).serveAll (Request.about symbol (requests.map Prod.snd)) = .ok result) :
    ∃ log last, exchange.serveAll requests = .ok (log, last) := by
  induction requests generalizing exchange with
  | nil => exact ⟨[], exchange, rfl⟩
  | cons entry rest ih =>
      obtain ⟨now, request⟩ := entry
      obtain ⟨named, names, tracks⟩ :=
        serve_tracks sound now (explicit request List.mem_cons_self)
      obtain ⟨⟨log, last⟩, run⟩ := runs named
      simp only [Request.about, List.map_cons, List.filter_cons, names, decide_true,
        ↓reduceIte] at run
      obtain ⟨response, pit, later, own, tail, -⟩ := Pit.serveAll_cons.mp run
      rw [own] at tracks
      obtain ⟨whole, middle, served, moves⟩ := tracks.of_pit_ok
      obtain ⟨others, final, rest_run⟩ := ih moves.sound
        (fun request member => explicit request (List.mem_cons_of_mem _ member)) (by
          intro symbol
          by_cases here : symbol = named
          · subst here
            rw [moves.own]
            exact ⟨_, tail⟩
          · rw [moves.others symbol here]
            have run := runs symbol
            simpa [Request.about, names, Ne.symm here] using run)
      exact ⟨_, final, serveAll_cons.mpr ⟨whole, middle, others, served, rest_run, rfl⟩⟩

end Exchange

/-- Symbols are independent. For every directory that can come about and any two lists of
explicit requests that name no symbol in common, every way to weave them in between each
other, at whatever times, gives the same for each symbol: what is returned to the requests
that name it, and its pit, that is whether it has a live market, that market with its book,
depth views, flags and listing, its counters, and the events published of it. Dates of
trades are left out on both sides. If one of the runs goes through then so does the other. -/
theorem symbols_independent {exchange last : Exchange} {sent : Array Event}
    {first second : List Request} {one other : List (Instant × Request)} {log : Log}
    (built : exchange.directory.Built) (sink : exchange.desk.sink = .channel none sent)
    (explicit : ∀ request ∈ first ++ second, request.Explicit)
    (apart : ∀ request ∈ first, ∀ foreign ∈ second, request.symbol? ≠ foreign.symbol?)
    (weave : Weaves first second (one.map Prod.snd))
    (another : Weaves first second (other.map Prod.snd))
    (run : exchange.serveAll one = .ok (log, last)) :
    ∃ log' last', exchange.serveAll other = .ok (log', last') ∧
      ∀ symbol, log'.about symbol = log.about symbol ∧ last'.pit symbol = last.pit symbol := by
  have sound : exchange.Sound := ⟨built.sound, sent, sink⟩
  -- a symbol is named by requests of one of the lists only, and those keep their order
  have same (symbol : String) : Request.about symbol (other.map Prod.snd) =
      Request.about symbol (one.map Prod.snd) := by
    unfold Request.about
    by_cases named : ∃ request ∈ first, request.symbol? = some symbol
    · obtain ⟨request, member, names⟩ := named
      have none : ∀ foreign ∈ second, decide (foreign.symbol? = some symbol) = false :=
        fun foreign there => by simpa [names] using (apart request member foreign there).symm
      rw [weave.filter_first none, another.filter_first none]
    · have none : ∀ request ∈ first, decide (request.symbol? = some symbol) = false :=
        fun request member => by simpa using fun names => named ⟨request, member, names⟩
      rw [weave.symm.filter_first none, another.symm.filter_first none]
  have told : ∀ request ∈ one.map Prod.snd, request.Explicit :=
    fun request member => explicit request (weave.perm.subset member)
  have pits := sound.serveAll_pit told run
  have explicit' : ∀ request ∈ other.map Prod.snd, request.Explicit :=
    fun request member => explicit request (another.perm.subset member)
  obtain ⟨log', last', run'⟩ := sound.serveAll_of_pits explicit'
    fun symbol => ⟨_, (same symbol).symm ▸ pits symbol⟩
  refine ⟨log', last', run', fun symbol => ?_⟩
  have mine := sound.serveAll_pit explicit' run' symbol
  rw [same symbol, pits symbol] at mine
  obtain ⟨logs, own⟩ := Prod.mk.inj (Except.ok.inj mine)
  exact ⟨logs.symm, own.symm⟩

def Request.sampleOrders : List Request :=
  [.place (History.sampleAsk "ask"), .place History.mixedBid]

def Request.sampleReopening : List Request :=
  let bid := { History.sampleBid with symbol := "token" }
  [.place bid, .command (.removeSymbol "token"), .place bid]

theorem sample_symbols_independent : ∃ one other log last log' last',
    Weaves Request.sampleOrders Request.sampleReopening (one.map Prod.snd) ∧
    Weaves Request.sampleOrders Request.sampleReopening (other.map Prod.snd) ∧
    (one.map fun entry => entry.2.symbol?) =
      [some "coin", some "token", some "token", some "coin", some "token"] ∧
    (other.map fun entry => entry.2.symbol?) =
      [some "token", some "token", some "token", some "coin", some "coin"] ∧
    (Exchange.ofSettings .default .openChannel).serveAll one = .ok (log, last) ∧
    (Exchange.ofSettings .default .openChannel).serveAll other = .ok (log', last') ∧
    ∀ symbol, log'.about symbol = log.about symbol ∧ last'.pit symbol = last.pit symbol := by
  let early (request : Request) : Instant × Request := (default, request)
  let late (request : Request) : Instant × Request := (⟨1, 0⟩, request)
  let ask := Request.place (History.sampleAsk "ask")
  let bid := Request.place History.mixedBid
  let deep := Request.place { History.sampleBid with symbol := "token" }
  let gone := Request.command (.removeSymbol "token")
  let one := [early ask, early deep, early gone, early bid, early deep]
  let other := [late deep, late gone, late deep, late ask, late bid]
  have weave : Weaves Request.sampleOrders Request.sampleReopening (one.map Prod.snd) :=
    .first _ (.second _ (.second _ (.first _ (.second _ .nil))))
  have another : Weaves Request.sampleOrders Request.sampleReopening (other.map Prod.snd) :=
    .second _ (.second _ (.second _ (.first _ (.first _ .nil))))
  have run : ((Exchange.ofSettings .default .openChannel).serveAll one).isOk = true := by
    decide +kernel
  obtain ⟨⟨log, last⟩, ran⟩ :
      ∃ result, (Exchange.ofSettings .default .openChannel).serveAll one = .ok result := by
    cases whole : (Exchange.ofSettings .default .openChannel).serveAll one with
    | error cause =>
        rw [whole] at run
        cases run
    | ok result => exact ⟨result, rfl⟩
  obtain ⟨log', last', ran', same⟩ := symbols_independent (.ofSettings _) rfl
    (by simp [Request.sampleOrders, Request.sampleReopening, Request.Explicit])
    (by simp [Request.sampleOrders, Request.sampleReopening, Request.symbol?, Command.symbol,
      History.sampleAsk, History.mixedBid, Order.limit]) weave another ran
  exact ⟨one, other, log, last, log', last', weave, another, rfl, rfl, ran, ran', same⟩

end SpotExchange
