import SpotExchange.Proofs.History

/-!
Two ways to find the levels that an incoming order crosses. Sharing looks them up all at
once, as a range of prices that ends at the limit. Price-time matching takes the best level
there is, compares it with the limit, and goes on with those that are left. Both find the
same levels in the same order, since no level beyond the limit has a better one behind it.
-/

namespace SpotExchange

namespace Ladder

/-- Prices get strictly worse from the best one outward. -/
def Sorted (side : Side) (ladder : Ladder) : Prop :=
  ladder.Pairwise fun near far => side.better near.price far.price = true

def without (price : Decimal) (ladder : Ladder) : Ladder :=
  ladder.filter fun level => !decide (level.price ≈ price)

theorem length_without_lt {ladder : Ladder} {price : Decimal}
    (best : ladder.bestPrice? = some price) : (ladder.without price).length < ladder.length := by
  cases ladder with
  | nil => cases best
  | cons level rest =>
      obtain rfl : level.price = price := Option.some.inj best
      have gone : without level.price (level :: rest) = without level.price rest :=
        List.filter_cons_of_neg (by simp)
      rw [gone, List.length_cons, Nat.lt_succ_iff]
      exact List.length_filter_le _ _

/-- The prices found one by one: the best price of the ladder as long as an incoming order
of `side` crosses it, each taken off before the next is looked for. -/
def bestCrossing (side : Side) (limit : Decimal) (ladder : Ladder) : List Decimal :=
  match _found : ladder.bestPrice? with
  | none => []
  | some price =>
    if side.crosses limit price then price :: bestCrossing side limit (ladder.without price)
    else []
termination_by ladder.length
decreasing_by exact length_without_lt _found

/-- The prices found at once: those up to the limit of an incoming buy, or from the limit
of an incoming sell on, looked up by rising price and given best first. -/
def pricesInRange (side : Side) (limit : Decimal) (ladder : Ladder) : List Decimal :=
  let prices := (ladder.rising side.opposite).map fun level => level.price
  match side with
  | .buy => prices.takeWhile fun price => price ≤ limit
  | .sell => (prices.dropWhile fun price => price < limit).reverse

section Crossing
variable {side : Side} {limit : Decimal} {ladder rest : Ladder} {level : PriceLevel}

theorem best_of_bestPrice? {price : Decimal} (sorted : ladder.Sorted side)
    (best : ladder.bestPrice? = some price) :
    ∀ level ∈ ladder, level.price = price ∨ side.better price level.price = true := by
  cases ladder with
  | nil => cases best
  | cons level rest =>
      obtain rfl : level.price = price := Option.some.inj best
      intro other member
      rcases List.mem_cons.mp member with rfl | behind
      · exact Or.inl rfl
      · exact Or.inr ((List.pairwise_cons.mp sorted).1 other behind)

theorem without_first (sorted : Sorted side (level :: rest)) :
    without level.price (level :: rest) = rest := by
  obtain ⟨worse, -⟩ := List.pairwise_cons.mp sorted
  rw [without, List.filter_cons_of_neg (by simp)]
  refine List.filter_eq_self.mpr fun other member => ?_
  have apart := Side.not_equiv_of_better (worse other member)
  simpa using fun same => apart (Decimal.equiv_symm same)

theorem bestCrossing_cons {taker : Side} (sorted : Sorted side (level :: rest)) :
    bestCrossing taker limit (level :: rest) =
      if taker.crosses limit level.price then level.price :: bestCrossing taker limit rest
      else [] := by
  rw [bestCrossing]
  simp only [bestPrice?, List.head?_cons, Option.map_some, without_first sorted]

theorem beyond_of_sorted (sorted : Sorted side.opposite (level :: rest))
    (beyond : side.crosses limit level.price = false) :
    ∀ other ∈ rest, side.crosses limit other.price = false := by
  intro other member
  have worse := (List.pairwise_cons.mp sorted).1 other member
  exact Bool.eq_false_iff.mpr (Side.not_crosses_of_better (Bool.eq_false_iff.mp beyond) worse)

/-- The crossing prices are the first ones of the ladder. -/
theorem crossingPrices_eq_takeWhile (sorted : ladder.Sorted side.opposite) :
    ladder.crossingPrices side limit =
      (ladder.map fun level => level.price).takeWhile fun price => side.crosses limit price := by
  unfold crossingPrices
  induction ladder with
  | nil => rfl
  | cons level rest ih =>
      cases within : side.crosses limit level.price with
      | true => simp [within, ih (List.pairwise_cons.mp sorted).2]
      | false =>
          have none : (rest.map fun level => level.price).filter
              (fun price => side.crosses limit price) = [] := by
            rw [List.filter_eq_nil_iff]
            simpa using beyond_of_sorted sorted within
          simp [within, none]

theorem bestCrossing_eq_crossingPrices (sorted : ladder.Sorted side.opposite) :
    ladder.bestCrossing side limit = ladder.crossingPrices side limit := by
  rw [crossingPrices_eq_takeWhile sorted]
  induction ladder with
  | nil => simp [bestCrossing, bestPrice?]
  | cons level rest ih =>
      rw [bestCrossing_cons sorted, ih (List.pairwise_cons.mp sorted).2, List.map_cons,
        List.takeWhile_cons]

theorem dropWhile_reverse {α : Type} {keep : α → Bool} {items : List α}
    (down : items.Pairwise fun near far => keep far = true → keep near = true) :
    (items.reverse.dropWhile fun item => !keep item) = (items.takeWhile keep).reverse := by
  induction items with
  | nil => rfl
  | cons item rest ih =>
      obtain ⟨first, others⟩ := List.pairwise_cons.mp down
      rw [List.reverse_cons, List.dropWhile_append, ih others, List.takeWhile_cons]
      cases kept : keep item with
      | true => cases rest.takeWhile keep <;> simp [kept]
      | false =>
          have none : rest.takeWhile keep = [] := by
            cases rest with
            | nil => rfl
            | cons next more =>
                have gone : keep next = false := by
                  by_contra held
                  simpa [kept] using first next List.mem_cons_self (by simpa using held)
                simp [gone]
          simp [kept, none]

theorem pricesInRange_eq_crossingPrices (sorted : ladder.Sorted side.opposite) :
    ladder.pricesInRange side limit = ladder.crossingPrices side limit := by
  rw [crossingPrices_eq_takeWhile sorted]
  cases side with
  | buy => rfl
  | sell =>
      have down : (ladder.map fun level => level.price).Pairwise fun near far =>
          decide (limit ≤ far) = true → decide (limit ≤ near) = true := by
        refine List.pairwise_map.mpr (sorted.imp fun {near far} worse reached => ?_)
        rw [Side.better_iff_value] at worse
        rw [decide_eq_true_iff, Decimal.le_iff_value] at reached ⊢
        exact reached.trans worse.le
      have below (price : Decimal) : decide (price < limit) = !decide (limit ≤ price) := by
        rw [← decide_not, decide_eq_decide, Decimal.lt_iff_value, Decimal.le_iff_value, not_le]
      have turned := dropWhile_reverse down
      simp only [pricesInRange, rising, Side.opposite, List.map_reverse, below, turned,
        List.reverse_reverse]
      rfl

theorem crossing_cons (within : side.crosses limit level.price = true) (rest : Ladder) :
    (divide side limit (level :: rest)).1 = level :: (divide side limit rest).1 := by
  simp [divide, within]

theorem prices_divide (side : Side) (limit : Decimal) (ladder : Ladder) :
    (ladder.divide side limit).1.map (fun level => level.price) =
      ladder.crossingPrices side limit := by
  rw [divide, crossingPrices, List.filter_map]
  rfl

end Crossing

end Ladder

namespace Pass

section Visits
variable {listing : Listing} {now : Instant} {pass swept : Pass} {limit : Decimal}

theorem meet_terms {maker after : Order} (met : pass.meet listing now maker = .ok (swept, after)) :
    swept.taker.terms = pass.taker.terms := by
  simp only [meet] at met
  split_ifs at met
  · cases met
    rfl
  · simp only [bind_eq_ok] at met
    obtain ⟨need, -, available, -, rest⟩ := met
    split_ifs at rest
    · cases rest
      rfl
    · obtain ⟨product, -, settled⟩ := (bind_eq_ok _ _ _).mp rest
      exact Order.terms_fill (settle_eq_ok settled).2.1

theorem sweepQueue_terms {queue left : OrderQueue}
    (walk : pass.sweepQueue listing now queue = .ok (swept, left)) :
    swept.taker.terms = pass.taker.terms := by
  induction queue generalizing pass left with
  | nil =>
      cases walk
      rfl
  | cons maker rest ih =>
      obtain ⟨met, after, told, front, meeting, fate, tail⟩ := sweepQueue_cons walk
      have same : told.taker.terms = pass.taker.terms := by
        rcases fate with ⟨-, rfl, -⟩ | ⟨-, rfl, -⟩
        · exact (meet_terms meeting : met.taker.terms = pass.taker.terms)
        · exact meet_terms meeting
      rcases tail with ⟨-, rfl, -⟩ | ⟨-, others, further, -⟩
      · exact same
      · exact (ih further).trans same

/-- The levels that a walk over a ladder looks into. It goes on behind a level when that is
drained and the taker is not done. -/
def visited (pass : Pass) (listing : Listing) (now : Instant) (limit : Option Decimal) :
    Ladder → List PriceLevel
  | [] => []
  | level :: rest =>
    if reaches pass.taker limit level then
      level ::
        match pass.sweepQueue listing now level.orders with
        | .ok (swept, []) =>
          if swept.taker.isCompleted then [] else swept.visited listing now limit rest
        | _ => []
    else []

theorem visited_prefix (pass : Pass) (listing : Listing) (now : Instant) (limit : Decimal)
    (ladder : Ladder) :
    pass.visited listing now (some limit) ladder <+:
      (ladder.divide pass.taker.side limit).1 := by
  induction ladder generalizing pass with
  | nil => exact List.prefix_rfl
  | cons level rest ih =>
      rw [visited]
      split_ifs with within
      · have crosses : pass.taker.side.crosses limit level.price = true := within
        rw [Ladder.crossing_cons crosses, List.prefix_cons_inj]
        split
        · rename_i swept queue
          split_ifs
          · exact List.nil_prefix
          · have same := Order.side_of_terms (sweepQueue_terms queue)
            rw [← same]
            exact ih swept
        · exact List.nil_prefix
      · exact List.nil_prefix

/-- A walk that drains all it looks into, and has a taker left, looks into all levels that
are crossed. -/
theorem visited_of_drained {ladder left : Ladder}
    (sorted : ladder.Sorted pass.taker.side.opposite)
    (walk : pass.sweepLadder listing now (some limit) ladder = .ok (swept, left))
    (live : swept.taker.isCompleted = false)
    (drained : ladder = pass.visited listing now (some limit) ladder ++ left) :
    pass.visited listing now (some limit) ladder = (ladder.divide pass.taker.side limit).1 := by
  induction ladder generalizing pass with
  | nil => rfl
  | cons level rest ih =>
      rcases sweepLadder_cons walk with ⟨beyond, -, -⟩ | ⟨within, met, orders, queue, tail⟩
      · have outside : pass.taker.side.crosses limit level.price = false := beyond
        have others := Ladder.beyond_of_sorted sorted outside
        have none : (Ladder.divide pass.taker.side limit (level :: rest)).1 = [] := by
          rw [Ladder.divide, List.filter_eq_nil_iff]
          simpa [outside] using others
        rw [none, visited, if_neg (Bool.eq_false_iff.mp beyond)]
      · have crosses : pass.taker.side.crosses limit level.price = true := within
        rw [Ladder.crossing_cons crosses]
        rcases tail with ⟨stop, rfl, rfl⟩ | ⟨rfl, more, further⟩
        · -- a level that keeps orders is looked into and still there
          have some : orders ≠ [] := stop.resolve_right (by simp [live])
          obtain ⟨first, others, rfl⟩ := List.exists_cons_of_ne_nil some
          have lengths := congrArg List.length drained
          simp [visited, within, queue, Ladder.keep] at lengths
        · have same := Order.side_of_terms (sweepQueue_terms queue)
          simp only [visited, within, queue, more, ↓reduceIte, Bool.false_eq_true,
            List.cons_append, List.cons.injEq, true_and] at drained ⊢
          rw [← same] at sorted ⊢
          exact ih (List.pairwise_cons.mp sorted).2 further drained

end Visits

end Pass

/-- The two ways to find crossing levels agree. In every ladder the prices within a limit,
looked up as a range, are those found by taking the best price off, than which no level has
a better one, again and again until one is beyond the limit; they are the prices of the
levels that an order is shared out over; and no level behind the first one beyond the limit
is within it. A walk by price and time looks into the first of these levels, in this order,
and into all of them when it drains each and its taker is not done. -/
theorem crossing_tests_agree {side : Side} {ladder : Ladder}
    (sorted : ladder.Sorted side.opposite) (limit : Decimal) :
    ladder.crossingPrices side limit = ladder.bestCrossing side limit ∧
      ladder.pricesInRange side limit = ladder.bestCrossing side limit ∧
      (ladder.divide side limit).1.map (fun level => level.price) =
        ladder.bestCrossing side limit ∧
      (∀ price, ladder.bestPrice? = some price → ∀ level ∈ ladder,
        level.price = price ∨ side.opposite.better price level.price = true) ∧
      (∀ near level far, ladder = near ++ level :: far →
        side.crosses limit level.price = false →
          ∀ other ∈ far, side.crosses limit other.price = false) ∧
      ∀ (listing : Listing) (now : Instant) (pass swept : Pass) (left : Ladder),
        pass.taker.side = side →
        pass.sweepLadder listing now (some limit) ladder = .ok (swept, left) →
        (pass.visited listing now (some limit) ladder).map (fun level => level.price) <+:
            ladder.bestCrossing side limit ∧
          (swept.taker.isCompleted = false →
            ladder = pass.visited listing now (some limit) ladder ++ left →
            (pass.visited listing now (some limit) ladder).map (fun level => level.price) =
              ladder.bestCrossing side limit) := by
  have same : ladder.bestCrossing side limit = ladder.crossingPrices side limit :=
    Ladder.bestCrossing_eq_crossingPrices sorted
  have prices := Ladder.prices_divide side limit ladder
  rw [same]
  refine ⟨rfl, Ladder.pricesInRange_eq_crossingPrices sorted, prices,
    fun price best => Ladder.best_of_bestPrice? sorted best, ?_, ?_⟩
  · rintro near level far rfl beyond
    exact Ladder.beyond_of_sorted (List.pairwise_append.mp sorted).2.1 beyond
  · rintro listing now pass swept left rfl walk
    rw [← prices]
    refine ⟨(Pass.visited_prefix pass listing now limit ladder).map _, fun live drained => ?_⟩
    rw [Pass.visited_of_drained sorted walk live drained]

def Ladder.sampleAsks : Ladder :=
  let ask (price : Decimal) : PriceLevel :=
    ⟨price, [.limit "ask" 1 "coin" .sell price (.ofParts 1 0) default]⟩
  [ask (.ofParts 9 0), ask (.ofParts 100 1), ask (.ofParts 11 0)]

theorem sample_crossing_tests : ∃ swept left, Ladder.sampleAsks.Sorted .sell ∧
    (Pass.start (.limit "bid" 2 "coin" .buy (.ofParts 10 0) (.ofParts 3 0) default)).sweepLadder
      (.named "coin") default (some (.ofParts 10 0)) Ladder.sampleAsks = .ok (swept, left) ∧
    swept.taker.isCompleted = false ∧ left.length = 1 ∧
    Ladder.sampleAsks.bestCrossing .buy (.ofParts 10 0) = [.ofParts 9 0, .ofParts 100 1] ∧
    ((Pass.start (.limit "bid" 2 "coin" .buy (.ofParts 10 0) (.ofParts 3 0) default)).visited
      (.named "coin") default (some (.ofParts 10 0)) Ladder.sampleAsks).map
        (fun level => level.price) = [.ofParts 9 0, .ofParts 100 1] := by
  have sorted : Ladder.sampleAsks.Sorted Side.buy.opposite := by
    unfold Ladder.Sorted
    decide +kernel
  have run : ∃ swept left,
      (Pass.start (.limit "bid" 2 "coin" .buy (.ofParts 10 0) (.ofParts 3 0) default)).sweepLadder
        (.named "coin") default (some (.ofParts 10 0)) Ladder.sampleAsks = .ok (swept, left) ∧
      swept.taker.isCompleted = false ∧ left.length = 1 ∧
      Ladder.sampleAsks =
        (Pass.start (.limit "bid" 2 "coin" .buy (.ofParts 10 0) (.ofParts 3 0) default)).visited
          (.named "coin") default (some (.ofParts 10 0)) Ladder.sampleAsks ++ left :=
    ⟨_, _, rfl, by decide +kernel, rfl, by decide +kernel⟩
  obtain ⟨swept, left, walk, live, length, drained⟩ := run
  obtain ⟨prices, -, -, -, -, visits⟩ := crossing_tests_agree sorted (.ofParts 10 0)
  have found : Ladder.sampleAsks.bestCrossing .buy (.ofParts 10 0) =
      [.ofParts 9 0, .ofParts 100 1] := by
    rw [← prices]
    decide +kernel
  refine ⟨swept, left, sorted, walk, live, length, found, ?_⟩
  rw [(visits _ _ _ _ _ rfl walk).2 live drained, found]

end SpotExchange
