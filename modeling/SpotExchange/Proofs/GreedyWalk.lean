import SpotExchange.Proofs.ExactQuantity

/-!
Price-time matching as a greedy fill. Where quantities are exact, a walk over
makers trades with each of them in turn the smaller of what the taker still wants
and what the maker can give; walking by levels and stopping early changes nothing.
-/

namespace SpotExchange

namespace Pass

/-- What a walk takes from each candidate as long as something is wanted. -/
def greedy (capacity : Order → ℚ) : ℚ → List Order → List (Order × ℚ)
  | _, [] => []
  | wanted, maker :: rest =>
    let amount := Min.min wanted (capacity maker)
    if 0 < amount then (maker, amount) :: greedy capacity (wanted - amount) rest
    else greedy capacity wanted rest

def filledBy (fills : List (Order × ℚ)) : ℚ := (fills.map Prod.snd).sum

section Greedy
variable {capacity : Order → ℚ}

theorem greedy_of_nonpos {wanted : ℚ} (nothing : wanted ≤ 0) (makers : List Order) :
    greedy capacity wanted makers = [] := by
  induction makers with
  | nil => rfl
  | cons maker rest ih =>
      have none : ¬ 0 < Min.min wanted (capacity maker) :=
        not_lt.mpr ((min_le_left _ _).trans nothing)
      rw [greedy, if_neg none]
      exact ih

theorem greedy_append (wanted : ℚ) (near far : List Order) :
    greedy capacity wanted (near ++ far) = greedy capacity wanted near ++
      greedy capacity (wanted - filledBy (greedy capacity wanted near)) far := by
  induction near generalizing wanted with
  | nil => simp [greedy, filledBy]
  | cons maker rest ih =>
      rw [List.cons_append, greedy, greedy]
      by_cases some : 0 < Min.min wanted (capacity maker)
      · simp only [some, ↓reduceIte, ih, List.cons_append, filledBy, List.map_cons, List.sum_cons,
          sub_sub]
      · simp only [some, ↓reduceIte, ih]

end Greedy

/-- What a maker can give a taker at their deal price; nothing where that cannot
be computed. -/
def capacity (listing : Listing) (taker maker : Order) : ℚ :=
  match maker.availableAt (dealPrice taker maker) listing.baseScale with
  | .ok available => available.value
  | .error _ => 0

structure Executes (listing : Listing) (now : Instant) (taker : Order) (trade : Trade)
    (fill : Order × ℚ) : Prop where
  between : trade = Trade.between taker fill.1 (dealPrice taker fill.1) trade.amount trade.money now
  amount : trade.amount.value = fill.2
  money : ∃ product, trade.amount.mul (dealPrice taker fill.1) = .ok product ∧
    trade.money = listing.floorQuote product

/-- A pass filled its taker greedily from these makers. -/
structure Fills (listing : Listing) (now : Instant) (places : Nat) (pass : Pass)
    (makers : List Order) (later : Pass) : Prop where
  trades : ∃ trades, later.trades.toList = pass.trades.toList ++ trades ∧
    List.Forall₂ (Executes listing now pass.taker) trades
      (greedy (capacity listing pass.taker) pass.taker.left makers)
  left : later.taker.left = pass.taker.left -
    filledBy (greedy (capacity listing pass.taker) pass.taker.left makers)
  exact : later.taker.Exact places
  terms : later.taker.terms = pass.taker.terms
  done : later.taker.isCompleted = true → later.taker.left ≤ 0

section Fills
variable {listing : Listing} {now : Instant} {places : Nat} {pass middle later : Pass}
  {near far makers : List Order}

theorem capacity_of_terms {taker taker' : Order} (same : taker.terms = taker'.terms) :
    capacity listing taker = capacity listing taker' := by
  funext maker
  rw [capacity, capacity, dealPrice_of_terms same]

theorem Executes.of_terms {taker taker' : Order} {trade : Trade} {fill : Order × ℚ}
    (executes : Executes listing now taker trade fill) (same : taker.terms = taker'.terms) :
    Executes listing now taker' trade fill where
  between := by
    rw [← dealPrice_of_terms same, ← Trade.between_of_terms _ _ _ _ same rfl]
    exact executes.between
  amount := executes.amount
  money := by
    rw [← dealPrice_of_terms same]
    exact executes.money

theorem Fills.idle (taken : pass.taker.Exact places) (live : pass.taker.isCompleted = false) :
    Fills listing now places pass [] pass where
  trades := ⟨[], by simp, .nil⟩
  left := by simp [greedy, filledBy]
  exact := taken
  terms := rfl
  done := by simp [live]

theorem Fills.append (first : Fills listing now places pass near middle)
    (second : Fills listing now places middle far later) :
    Fills listing now places pass (near ++ far) later := by
  obtain ⟨trades, recorded, executed⟩ := first.trades
  obtain ⟨trades', recorded', executed'⟩ := second.trades
  -- what the first walk left is what the second one starts from
  have left := second.left
  rw [first.left, capacity_of_terms first.terms] at executed' left
  refine ⟨⟨trades ++ trades', ?_, ?_⟩, ?_, second.exact, second.terms.trans first.terms,
    second.done⟩
  · rw [recorded', recorded, List.append_assoc]
  · rw [greedy_append]
    exact List.rel_append executed
      (executed'.imp fun _ _ executes => executes.of_terms first.terms)
  · rw [left, greedy_append]
    simp only [filledBy, List.map_append, List.sum_append]
    ring

theorem Fills.stop (first : Fills listing now places pass near later)
    (done : later.taker.isCompleted = true) (far : List Order) :
    Fills listing now places pass (near ++ far) later := by
  have none : greedy (capacity listing pass.taker) pass.taker.left (near ++ far) =
      greedy (capacity listing pass.taker) pass.taker.left near := by
    rw [greedy_append, ← first.left, greedy_of_nonpos (first.done done), List.append_nil]
  exact ⟨none ▸ first.trades, none ▸ first.left, first.exact, first.terms, first.done⟩

theorem Fills.complete (fills : Fills listing now places pass makers later) (done : List Order) :
    Fills listing now places pass makers (later.complete done) :=
  ⟨fills.trades, fills.left, fills.exact, fills.terms, fills.done⟩

/-- One meeting is one step of the greedy fill. -/
theorem meet_fills {met : Pass} {maker after : Order} (fewer : listing.baseScale ≤ places)
    (taken : pass.taker.Exact places) (live : pass.taker.isCompleted = false)
    (meets : Meets places pass.taker maker)
    (meeting : pass.meet listing now maker = .ok (met, after)) :
    Fills listing now places pass [maker] met := by
  obtain ⟨available, offered, trade⟩ := meet_exact taken live meets meeting
  have room : capacity listing pass.taker maker = available.value := by
    rw [capacity, offered]
  rcases trade with ⟨nothing, rfl, -⟩ | ⟨amount, money, some, quantity, terms, settled⟩
  · have none : greedy (capacity listing met.taker) met.taker.left [maker] = [] := by
      rw [greedy, room, if_neg (not_lt.mpr nothing), greedy]
    refine ⟨⟨[], by simp, ?_⟩, ?_, taken, rfl, by simp [live]⟩
    · rw [none]
      exact .nil
    · rw [none]
      simp [filledBy]
  · have one : greedy (capacity listing pass.taker) pass.taker.left [maker] =
        [(maker, amount.value)] := by
      rw [greedy, room, if_pos some, quantity, greedy]
    obtain ⟨exact, left, done⟩ := taker_of_settle fewer taken meets.counted terms settled
    obtain ⟨-, took, pushed, -, -⟩ := settle_eq_ok settled
    refine ⟨⟨[_], by rw [pushed]; exact Array.toList_push, ?_⟩, ?_, exact,
      Order.terms_fill took, fun ended => (done.mp ended).le⟩
    · rw [one]
      exact .cons ⟨rfl, rfl, terms.money_cut⟩ .nil
    · rw [one, left]
      simp [filledBy]

theorem sweepQueue_fills {swept : Pass} {queue kept : OrderQueue}
    (fewer : listing.baseScale ≤ places) (taken : pass.taker.Exact places)
    (live : pass.taker.isCompleted = false)
    (meets : ∀ maker ∈ queue, Meets places pass.taker maker)
    (walk : pass.sweepQueue listing now queue = .ok (swept, kept)) :
    Fills listing now places pass queue swept := by
  induction queue generalizing pass swept kept with
  | nil =>
      cases walk
      exact .idle taken live
  | cons maker rest ih =>
      obtain ⟨first_meets, rest_meets⟩ := List.forall_mem_cons.mp meets
      obtain ⟨met, after, told, front, meeting, fate, tail⟩ := sweepQueue_cons walk
      have first : Fills listing now places pass [maker] told := by
        have fills := meet_fills fewer taken live first_meets meeting
        rcases fate with ⟨-, rfl, -⟩ | ⟨-, rfl, -⟩
        · exact fills.complete [after]
        · exact fills
      rcases tail with ⟨stop, rfl, -⟩ | ⟨more, others, further, -⟩
      · exact first.stop stop rest
      · refine first.append (ih first.exact more ?_ further)
        intro other member
        exact (rest_meets other member).of_terms first.terms.symm

/-- A walk over a ladder fills the taker greedily from the levels within its limit. -/
theorem sweepLadder_fills {swept : Pass} {limit : Option Decimal} {symbol : String}
    {ladder left : Ladder} (fewer : listing.baseScale ≤ places) (taken : pass.taker.Exact places)
    (formed : ladder.WellFormed symbol pass.taker.side.opposite)
    (given : ∀ maker ∈ ladder.orders, maker.Counted places)
    (live : pass.taker.isCompleted = false)
    (walk : pass.sweepLadder listing now limit ladder = .ok (swept, left)) :
    Fills listing now places pass
      (Ladder.orders (ladder.filter fun level => reaches pass.taker limit level)) swept := by
  induction ladder generalizing pass swept left with
  | nil =>
      cases walk
      exact .idle taken live
  | cons level rest ih =>
      rcases sweepLadder_cons walk with ⟨beyond, rfl, rfl⟩ | ⟨within, met, orders, queue, tail⟩
      · -- prices only get worse, so no level is reached any more
        have none : (level :: rest).filter (fun level => reaches swept.taker limit level) = [] := by
          apply List.filter_eq_nil_iff.mpr
          intro other member
          rw [not_reaches_of_sorted formed.sorted beyond other member]
          exact Bool.false_ne_true
        rw [none]
        exact .idle taken live
      · have makers := fun maker (member : maker ∈ level.orders) =>
          meets_of_placed formed given pass.taker
            (Ladder.mem_orders.mpr ⟨level, List.mem_cons_self, member⟩)
        have meets := fun maker member => (makers maker member).1
        rw [Ladder.orders_cons] at given
        obtain ⟨-, far⟩ := List.forall_mem_append.mp given
        have first := sweepQueue_fills fewer taken live meets queue
        rw [List.filter_cons_of_pos within, Ladder.orders_cons]
        rcases tail with ⟨some | done, rfl, -⟩ | ⟨-, more, further⟩
        · -- orders are kept only once the taker is done
          have done := (sweepQueue_exhausts fewer taken live meets
            (fun maker member => (makers maker member).2) queue).resolve_right some
          exact first.stop done _
        · exact first.stop done _
        · have behind := formed.tail
          rw [← Order.side_of_terms first.terms] at behind
          have second := ih first.exact behind far more further
          simp only [reaches_of_terms first.terms] at second
          exact first.append second

end Fills

end Pass

end SpotExchange
