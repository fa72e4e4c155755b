import SpotExchange.Proofs.OrderFill
import SpotExchange.Book.OrderBook

/-!
The shape of a book: what a ladder and a queue may hold, and what is left of
them when orders are taken out. Prices of a ladder get strictly worse; orders
stand behind those that came earlier.
-/

namespace SpotExchange

namespace Side

theorem better_iff_value (side : Side) (a b : Decimal) : side.better a b = true ↔
    match side with
    | .buy => b.value < a.value
    | .sell => a.value < b.value := by
  cases side <;> simp [better, Decimal.lt_iff_value]

theorem crosses_iff_value (side : Side) (limit resting : Decimal) :
    side.crosses limit resting = true ↔
      match side with
      | .buy => resting.value ≤ limit.value
      | .sell => limit.value ≤ resting.value := by
  cases side <;> simp [crosses, Decimal.le_iff_value]

theorem better_trans {side : Side} {a b c : Decimal} (first : side.better a b = true)
    (second : side.better b c = true) : side.better a c = true := by
  rw [better_iff_value] at *
  cases side <;> simp only at * <;> linarith

theorem value_ne_of_better {side : Side} {a b : Decimal} (better : side.better a b = true) :
    a.value ≠ b.value := by
  rw [better_iff_value] at better
  cases side
  · exact better.ne'
  · exact better.ne

theorem not_equiv_of_better {side : Side} {a b : Decimal} (better : side.better a b = true) :
    ¬ a ≈ b := by
  rw [Decimal.equiv_iff_value]
  exact value_ne_of_better better

theorem better_of_not {side : Side} {a b : Decimal} (different : ¬ b ≈ a)
    (worse : ¬ side.better a b = true) : side.better b a = true := by
  rw [better_iff_value] at *
  rw [Decimal.equiv_iff_value] at different
  cases side
  · exact lt_of_le_of_ne (not_lt.mp worse) (Ne.symm different)
  · exact lt_of_le_of_ne (not_lt.mp worse) different

theorem not_crosses_of_better {side : Side} {limit near far : Decimal}
    (beyond : ¬ side.crosses limit near = true) (worse : side.opposite.better near far = true) :
    ¬ side.crosses limit far = true := by
  rw [crosses_iff_value] at *
  rw [better_iff_value] at worse
  cases side <;> simp only [opposite] at * <;> linarith

theorem crosses_congr {side : Side} {limit a b : Decimal} (same : a ≈ b) :
    side.crosses limit a = side.crosses limit b := by
  rw [Decimal.equiv_iff_value] at same
  rw [Bool.eq_iff_iff, crosses_iff_value, crosses_iff_value, same]

@[simp] theorem opposite_opposite (side : Side) : side.opposite.opposite = side := by
  cases side <;> rfl

end Side

/-- What every resting order keeps to: its symbol is that of the book, it asks
for something, and something is left of that. -/
structure Order.Rests (symbol : String) (order : Order) : Prop where
  symbol_eq : order.symbol = symbol
  amount_pos : 0 < order.amount
  live : order.isCompleted = false

theorem Order.Rests.of_terms {symbol : String} {order later : Order} (rests : order.Rests symbol)
    (same : order.terms = later.terms) (live : later.isCompleted = false) : later.Rests symbol where
  symbol_eq := (Order.symbol_of_terms same).symm.trans rests.symbol_eq
  amount_pos := Order.amount_of_terms same ▸ rests.amount_pos
  live := live

namespace OrderQueue

/-- Some orders of `before` are gone; the others have their terms and their turn. -/
def Remainder (before after : OrderQueue) : Prop :=
  (after.map Order.terms).Sublist (before.map Order.terms)

theorem Remainder.refl (queue : OrderQueue) : Remainder queue queue := List.Sublist.refl _

theorem Remainder.trans {first second third : OrderQueue} (left : Remainder first second)
    (right : Remainder second third) : Remainder first third := List.Sublist.trans right left

theorem Remainder.of_sublist {before after : OrderQueue} (fewer : after.Sublist before) :
    Remainder before after := fewer.map _

theorem Remainder.exists_terms {before after : OrderQueue} (left : Remainder before after)
    {order : Order} (member : order ∈ after) : ∃ earlier ∈ before, earlier.terms = order.terms := by
  have known := left.subset (List.mem_map_of_mem member)
  simpa using known

theorem Remainder.numbers {before after : OrderQueue} (left : Remainder before after) :
    (after.map Order.number).Sublist (before.map Order.number) := by
  have mapped := List.Sublist.map Order.number left
  simp only [List.map_map] at mapped
  exact mapped

theorem Remainder.append {a b c d : OrderQueue} (left : Remainder a b) (right : Remainder c d) :
    Remainder (a ++ c) (b ++ d) := by
  unfold Remainder
  rw [List.map_append, List.map_append]
  exact List.Sublist.append left right

/-- A queue of market orders of one side. -/
def WellFormed (symbol : String) (side : Side) (queue : OrderQueue) : Prop :=
  ∀ order ∈ queue, order.kind = .market ∧ order.side = side ∧ order.Rests symbol

theorem WellFormed.remainder {symbol : String} {side : Side} {before after : OrderQueue}
    (formed : WellFormed symbol side before) (left : Remainder before after)
    (live : ∀ order ∈ after, order.isCompleted = false) : WellFormed symbol side after := by
  intro order member
  obtain ⟨origin, there, same⟩ := left.exists_terms member
  obtain ⟨market, own, rests⟩ := formed origin there
  rw [← Order.kind_of_terms same, ← Order.side_of_terms same]
  exact ⟨market, own, rests.of_terms same (live order member)⟩

theorem extract?_eq_some {number : String} {queue rest : OrderQueue} {order : Order}
    (found : extract? number queue = some (order, rest)) :
    order.number = number ∧ ∃ before after, queue = before ++ order :: after ∧
      rest = before ++ after := by
  induction queue generalizing rest with
  | nil => simp [extract?] at found
  | cons first others ih =>
      rw [extract?] at found
      split at found
      · rename_i same
        cases found
        exact ⟨same, [], others, rfl, rfl⟩
      · obtain ⟨⟨last, left⟩, deeper, same⟩ := Option.map_eq_some_iff.mp found
        cases same
        obtain ⟨number_eq, before, after, rfl, rfl⟩ := ih deeper
        exact ⟨number_eq, first :: before, after, rfl, rfl⟩

theorem extract?_isSome {number : String} {queue : OrderQueue} :
    (extract? number queue).isSome = true ↔ ∃ order ∈ queue, order.number = number := by
  induction queue with
  | nil => simp [extract?]
  | cons first others ih =>
      rw [extract?, List.exists_mem_cons_iff]
      split_ifs with same
      · exact iff_of_true rfl (Or.inl same)
      · rw [Option.isSome_map, ih, or_iff_right same]

end OrderQueue

namespace Ladder

/-- Some levels of `before` are gone, and some orders of the others. -/
def Remainder (before after : Ladder) : Prop :=
  List.SublistForall₂ (fun left level => left.price = level.price ∧
    OrderQueue.Remainder level.orders left.orders) after before

theorem Remainder.refl (ladder : Ladder) : Remainder ladder ladder := by
  induction ladder with
  | nil => exact .nil
  | cons level rest ih => exact .cons ⟨rfl, .refl _⟩ ih

theorem Remainder.trans {first second third : Ladder} (left : Remainder first second)
    (right : Remainder second third) : Remainder first third := by
  induction left generalizing third with
  | nil =>
      cases right
      exact .nil
  | cons same _ ih =>
      cases right with
      | nil => exact .nil
      | cons again tail =>
          exact .cons ⟨again.1.trans same.1, same.2.trans again.2⟩ (ih tail)
      | cons_right tail => exact .cons_right (ih tail)
  | cons_right _ ih => exact .cons_right (ih right)

theorem Remainder.append {a b c d : Ladder} (near : Remainder a b) (far : Remainder c d) :
    Remainder (a ++ c) (b ++ d) := by
  induction near with
  | @nil gone =>
      induction gone with
      | nil => exact far
      | cons level rest ih => exact .cons_right ih
  | cons same _ ih => exact .cons same ih
  | cons_right _ ih => exact .cons_right ih

theorem Remainder.exists_level {before after : Ladder} (left : Remainder before after)
    {level : PriceLevel} (member : level ∈ after) : ∃ earlier ∈ before,
      level.price = earlier.price ∧ OrderQueue.Remainder earlier.orders level.orders := by
  induction left with
  | nil => cases member
  | cons same _ ih =>
      rcases List.mem_cons.mp member with rfl | later
      · exact ⟨_, List.mem_cons_self, same⟩
      · obtain ⟨earlier, known, kept⟩ := ih later
        exact ⟨earlier, List.mem_cons_of_mem _ known, kept⟩
  | cons_right _ ih =>
      obtain ⟨earlier, known, kept⟩ := ih member
      exact ⟨earlier, List.mem_cons_of_mem _ known, kept⟩

/-- A ladder of limit orders of one side: prices get strictly worse, every level
holds orders, and all of them at its price. -/
structure WellFormed (symbol : String) (side : Side) (ladder : Ladder) : Prop where
  sorted : ladder.Pairwise fun near far => side.better near.price far.price = true
  occupied : ∀ level ∈ ladder, level.orders ≠ []
  price_pos : ∀ level ∈ ladder, 0 < level.price
  placed : ∀ level ∈ ladder, ∀ order ∈ level.orders,
    order.kind = .limit ∧ order.side = side ∧ order.price ≈ level.price
  rests : ∀ level ∈ ladder, ∀ order ∈ level.orders, order.Rests symbol

theorem WellFormed.sublist {symbol : String} {side : Side} {before after : Ladder}
    (formed : WellFormed symbol side before) (fewer : after.Sublist before) :
    WellFormed symbol side after where
  sorted := formed.sorted.sublist fewer
  occupied := fun level member => formed.occupied level (fewer.subset member)
  price_pos := fun level member => formed.price_pos level (fewer.subset member)
  placed := fun level member => formed.placed level (fewer.subset member)
  rests := fun level member => formed.rests level (fewer.subset member)

theorem WellFormed.tail {symbol : String} {side : Side} {level : PriceLevel} {rest : Ladder}
    (formed : WellFormed symbol side (level :: rest)) : WellFormed symbol side rest :=
  formed.sublist (List.sublist_cons_self _ _)

theorem WellFormed.first {symbol : String} {side : Side} {level : PriceLevel} {rest : Ladder}
    (formed : WellFormed symbol side (level :: rest)) :
    (∀ order ∈ level.orders, order.isCompleted = false) ∧
      ∀ order ∈ level.orders, order.kind = .limit ∧ order.price ≈ level.price := by
  constructor
  · exact fun order member => (formed.rests level List.mem_cons_self order member).live
  · intro order member
    obtain ⟨limit, -, near⟩ := formed.placed level List.mem_cons_self order member
    exact ⟨limit, near⟩

theorem mem_orders {ladder : Ladder} {order : Order} :
    order ∈ ladder.orders ↔ ∃ level ∈ ladder, order ∈ level.orders := List.mem_flatMap

theorem orders_cons (level : PriceLevel) (rest : Ladder) :
    orders (level :: rest) = level.orders ++ orders rest := List.flatMap_cons

theorem orders_append (near far : Ladder) : orders (near ++ far) = orders near ++ orders far :=
  List.flatMap_append

theorem orders_keep (level : PriceLevel) (left : OrderQueue) (rest : Ladder) :
    orders (keep level left rest) = left ++ orders rest := by
  unfold keep
  split
  · rename_i empty
    rw [List.isEmpty_iff.mp empty, List.nil_append]
  · exact orders_cons _ _

theorem occupied_keep {level : PriceLevel} {left : OrderQueue} {rest : Ladder}
    (others : ∀ level ∈ rest, level.orders ≠ []) :
    ∀ found ∈ keep level left rest, found.orders ≠ [] := by
  intro found member
  unfold keep at member
  split at member
  · exact others found member
  · rename_i some
    rcases List.mem_cons.mp member with rfl | later
    · simpa using some
    · exact others found later

theorem Remainder.keep {level : PriceLevel} {left : OrderQueue} {before after : Ladder}
    (near : OrderQueue.Remainder level.orders left) (far : Remainder before after) :
    Remainder (level :: before) (keep level left after) := by
  unfold Ladder.keep
  split
  · exact .cons_right far
  · exact .cons ⟨rfl, near⟩ far

theorem Remainder.sorted {side : Side} {before after : Ladder} (left : Remainder before after)
    (sorted : before.Pairwise fun near far => side.better near.price far.price = true) :
    after.Pairwise fun near far => side.better near.price far.price = true := by
  induction left with
  | nil => exact .nil
  | cons same tail ih =>
      obtain ⟨first, rest⟩ := List.pairwise_cons.mp sorted
      refine List.pairwise_cons.mpr ⟨?_, ih rest⟩
      intro level member
      obtain ⟨earlier, known, price, -⟩ := Remainder.exists_level tail member
      rw [same.1, price]
      exact first earlier known
  | cons_right _ ih => exact ih (List.pairwise_cons.mp sorted).2

theorem WellFormed.remainder {symbol : String} {side : Side} {before after : Ladder}
    (formed : WellFormed symbol side before) (left : Remainder before after)
    (occupied : ∀ level ∈ after, level.orders ≠ [])
    (live : ∀ order ∈ after.orders, order.isCompleted = false) : WellFormed symbol side after where
  sorted := left.sorted formed.sorted
  occupied := occupied
  price_pos := by
    intro level member
    obtain ⟨earlier, known, price, -⟩ := left.exists_level member
    rw [price]
    exact formed.price_pos earlier known
  placed := by
    intro level member order inside
    obtain ⟨earlier, known, price, kept⟩ := left.exists_level member
    obtain ⟨origin, there, same⟩ := kept.exists_terms inside
    rw [price, ← Order.kind_of_terms same, ← Order.side_of_terms same, ← Order.price_of_terms same]
    exact formed.placed earlier known origin there
  rests := by
    intro level member order inside
    obtain ⟨earlier, known, -, kept⟩ := left.exists_level member
    obtain ⟨origin, there, same⟩ := kept.exists_terms inside
    exact (formed.rests earlier known origin there).of_terms same
      (live order (mem_orders.mpr ⟨level, member, inside⟩))

/-- Where an order goes: onto the level of its price, or onto a new one. -/
theorem mem_append {side : Side} {order : Order} {ladder : Ladder} {level : PriceLevel}
    (member : level ∈ ladder.append side order) : level ∈ ladder ∨
      (∃ old ∈ ladder, old.price ≈ order.price ∧ level = old.append order) ∨
      level = ⟨order.price, [order]⟩ := by
  induction ladder with
  | nil => exact Or.inr (Or.inr (List.mem_singleton.mp member))
  | cons first rest ih =>
      rw [append] at member
      split_ifs at member with same ahead
      · rcases List.mem_cons.mp member with rfl | later
        · exact Or.inr (Or.inl ⟨first, List.mem_cons_self, same, rfl⟩)
        · exact Or.inl (List.mem_cons_of_mem _ later)
      · rcases List.mem_cons.mp member with rfl | later
        · exact Or.inr (Or.inr rfl)
        · exact Or.inl later
      · rcases List.mem_cons.mp member with rfl | later
        · exact Or.inl List.mem_cons_self
        · rcases ih later with old | ⟨old, known, joined⟩ | fresh
          · exact Or.inl (List.mem_cons_of_mem _ old)
          · exact Or.inr (Or.inl ⟨old, List.mem_cons_of_mem _ known, joined⟩)
          · exact Or.inr (Or.inr fresh)

theorem price_of_mem_append {side : Side} {order : Order} {ladder : Ladder} {level : PriceLevel}
    (member : level ∈ ladder.append side order) :
    level.price = order.price ∨ ∃ old ∈ ladder, level.price = old.price := by
  rcases mem_append member with old | ⟨old, known, -, rfl⟩ | rfl
  · exact Or.inr ⟨level, old, rfl⟩
  · exact Or.inr ⟨old, known, rfl⟩
  · exact Or.inl rfl

theorem exists_level_append (side : Side) (order : Order) (ladder : Ladder) :
    ∃ level ∈ ladder.append side order, level.price ≈ order.price ∧ order ∈ level.orders := by
  induction ladder with
  | nil => exact ⟨_, List.mem_singleton_self _, Decimal.equiv_rfl, List.mem_singleton_self _⟩
  | cons first rest ih =>
      rw [append]
      split_ifs with same ahead
      · exact ⟨_, List.mem_cons_self, same, List.mem_append_right _ (List.mem_singleton_self _)⟩
      · exact ⟨_, List.mem_cons_self, Decimal.equiv_rfl, List.mem_singleton_self _⟩
      · obtain ⟨level, member, found⟩ := ih
        exact ⟨level, List.mem_cons_of_mem _ member, found⟩

theorem sorted_append {side : Side} (order : Order) {ladder : Ladder}
    (sorted : ladder.Pairwise fun near far => side.better near.price far.price = true) :
    (ladder.append side order).Pairwise
      fun near far => side.better near.price far.price = true := by
  induction ladder with
  | nil => exact List.pairwise_singleton _ _
  | cons first rest ih =>
      obtain ⟨worse, tail⟩ := List.pairwise_cons.mp sorted
      rw [append]
      split_ifs with same ahead
      · exact List.pairwise_cons.mpr ⟨worse, tail⟩
      · refine List.pairwise_cons.mpr ⟨?_, sorted⟩
        intro level member
        rcases List.mem_cons.mp member with rfl | later
        · exact ahead
        · exact Side.better_trans ahead (worse level later)
      · -- the order goes somewhere behind this level, on an old price or its own
        refine List.pairwise_cons.mpr ⟨?_, ih tail⟩
        intro level member
        rcases price_of_mem_append member with price | ⟨old, known, price⟩
        · rw [price]
          exact Side.better_of_not same ahead
        · rw [price]
          exact worse old known

theorem WellFormed.append {symbol : String} {side : Side} {ladder : Ladder} {order : Order}
    (formed : WellFormed symbol side ladder) (limit : order.kind = .limit)
    (own : order.side = side) (priced : 0 < order.price) (rests : order.Rests symbol) :
    WellFormed symbol side (ladder.append side order) where
  sorted := sorted_append order formed.sorted
  occupied := by
    intro level member
    rcases mem_append member with old | ⟨old, -, -, rfl⟩ | rfl
    · exact formed.occupied level old
    · simp [PriceLevel.append]
    · simp
  price_pos := by
    intro level member
    rcases price_of_mem_append member with price | ⟨old, known, price⟩
    · rwa [price]
    · rw [price]
      exact formed.price_pos old known
  placed := by
    intro level member resting inside
    rcases mem_append member with old | ⟨old, known, same, rfl⟩ | rfl
    · exact formed.placed level old resting inside
    · rcases List.mem_append.mp inside with earlier | last
      · exact formed.placed old known resting earlier
      · obtain rfl := List.mem_singleton.mp last
        refine ⟨limit, own, ?_⟩
        rw [Decimal.equiv_iff_value] at same ⊢
        exact same.symm
    · obtain rfl := List.mem_singleton.mp inside
      exact ⟨limit, own, Decimal.equiv_rfl⟩
  rests := by
    intro level member resting inside
    rcases mem_append member with old | ⟨old, known, -, rfl⟩ | rfl
    · exact formed.rests level old resting inside
    · rcases List.mem_append.mp inside with earlier | last
      · exact formed.rests old known resting earlier
      · obtain rfl := List.mem_singleton.mp last
        exact rests
    · obtain rfl := List.mem_singleton.mp inside
      exact rests

theorem orders_append_perm (side : Side) (order : Order) (ladder : Ladder) :
    (orders (ladder.append side order)).Perm (order :: ladder.orders) := by
  induction ladder with
  | nil => exact List.Perm.refl _
  | cons first rest ih =>
      rw [append]
      split_ifs
      · simp only [orders_cons, PriceLevel.append, List.append_assoc, List.singleton_append]
        exact List.perm_middle
      · simp only [orders_cons]
        exact List.Perm.refl _
      · simp only [orders_cons]
        exact (ih.append_left _).trans List.perm_middle

/-- One order is gone from a ladder, from a level at this price. The others of the level
stand as they stood; the level goes with its last order. -/
inductive Without (price : Decimal) (order : Order) : Ladder → Ladder → Prop
  | shorter (near : Ladder) {far : Ladder} {level : PriceLevel} {before after : OrderQueue}
      (here : level.price ≈ price) (split : level.orders = before ++ order :: after)
      (others : before ++ after ≠ []) :
      Without price order (near ++ level :: far)
        (near ++ { level with orders := before ++ after } :: far)
  | last (near : Ladder) {far : Ladder} {level : PriceLevel}
      (here : level.price ≈ price) (only : level.orders = [order]) :
      Without price order (near ++ level :: far) (near ++ far)

theorem Without.cons {price : Decimal} {order : Order} {before after : Ladder} (level : PriceLevel)
    (without : Without price order before after) :
    Without price order (level :: before) (level :: after) := by
  cases without with
  | @shorter near far _ _ _ here split others =>
      exact .shorter (level :: near) here split others
  | @last near far _ here only => exact .last (level :: near) here only

theorem extract?_without {price : Decimal} {number : String} {ladder others : Ladder}
    {order : Order} (found : extract? price number ladder = some (order, others)) :
    order.number = number ∧ Without price order ladder others := by
  induction ladder generalizing others with
  | nil => simp [extract?] at found
  | cons first rest ih =>
      rw [extract?] at found
      split at found
      · -- this is the level of the price, and the only one that is searched
        rename_i same
        obtain ⟨⟨taken, left⟩, inside, equal⟩ := Option.map_eq_some_iff.mp found
        cases equal
        obtain ⟨number_eq, before, after, split, rfl⟩ := OrderQueue.extract?_eq_some inside
        refine ⟨number_eq, ?_⟩
        by_cases alone : before ++ after = []
        · obtain ⟨rfl, rfl⟩ := List.append_eq_nil_iff.mp alone
          exact .last [] same split
        · rw [keep, if_neg (by simpa using alone)]
          exact .shorter [] same split alone
      · obtain ⟨⟨taken, left⟩, deeper, equal⟩ := Option.map_eq_some_iff.mp found
        cases equal
        obtain ⟨number_eq, without⟩ := ih deeper
        exact ⟨number_eq, without.cons first⟩

theorem Without.exists_level {price : Decimal} {order : Order} {before after : Ladder}
    (without : Without price order before after) :
    ∃ level ∈ before, level.price ≈ price ∧ order ∈ level.orders := by
  cases without with
  | shorter _ here split _ =>
      exact ⟨_, List.mem_append_right _ List.mem_cons_self, here, by simp [split]⟩
  | last _ here only =>
      exact ⟨_, List.mem_append_right _ List.mem_cons_self, here, by simp [only]⟩

theorem Without.orders_perm {price : Decimal} {order : Order} {before after : Ladder}
    (without : Without price order before after) : before.orders.Perm (order :: after.orders) := by
  cases without with
  | shorter _ _ split _ =>
      rw [orders_append, orders_append, orders_cons, orders_cons, split]
      simp only [List.append_assoc, List.cons_append]
      rw [← List.append_assoc, ← List.append_assoc]
      exact List.perm_middle
  | last _ _ only =>
      rw [orders_append, orders_append, orders_cons, only]
      exact List.perm_middle

theorem Without.remainder {price : Decimal} {order : Order} {before after : Ladder}
    (without : Without price order before after) : Remainder before after := by
  cases without with
  | @shorter near far level first last _ split _ =>
      have fewer : (first ++ last).Sublist level.orders := by
        rw [split]
        exact List.Sublist.append_left (List.sublist_cons_self _ _) _
      exact (Remainder.refl near).append (.cons ⟨rfl, .of_sublist fewer⟩ (Remainder.refl far))
  | @last near far level _ _ =>
      exact (Remainder.refl near).append (.cons_right (Remainder.refl far))

theorem Without.occupied {price : Decimal} {order : Order} {before after : Ladder}
    (without : Without price order before after) (all : ∀ level ∈ before, level.orders ≠ []) :
    ∀ level ∈ after, level.orders ≠ [] := by
  cases without with
  | shorter _ _ _ others =>
      obtain ⟨near, far⟩ := List.forall_mem_append.mp all
      exact List.forall_mem_append.mpr
        ⟨near, List.forall_mem_cons.mpr ⟨others, (List.forall_mem_cons.mp far).2⟩⟩
  | last _ _ _ =>
      obtain ⟨near, far⟩ := List.forall_mem_append.mp all
      exact List.forall_mem_append.mpr ⟨near, (List.forall_mem_cons.mp far).2⟩

theorem extract?_isSome {side : Side} {price : Decimal} {number : String} {ladder : Ladder}
    (sorted : ladder.Pairwise fun near far => side.better near.price far.price = true) :
    (extract? price number ladder).isSome = true ↔
      ∃ level ∈ ladder, level.price ≈ price ∧ ∃ order ∈ level.orders, order.number = number := by
  induction ladder with
  | nil => simp [extract?]
  | cons first rest ih =>
      obtain ⟨worse, tail⟩ := List.pairwise_cons.mp sorted
      rw [extract?, List.exists_mem_cons_iff]
      split_ifs with same
      · rw [Option.isSome_map, OrderQueue.extract?_isSome]
        refine ⟨fun found => Or.inl ⟨same, found⟩, ?_⟩
        rintro (⟨-, found⟩ | ⟨level, member, again, -⟩)
        · exact found
        · have apart := Side.value_ne_of_better (worse level member)
          rw [Decimal.equiv_iff_value] at same again
          exact absurd (same.trans again.symm) apart
      · rw [Option.isSome_map, ih tail, or_iff_right fun found => same found.1]

theorem divide_append {side : Side} (limit : Decimal) {ladder : Ladder}
    (sorted : ladder.Pairwise fun near far => side.opposite.better near.price far.price = true) :
    (ladder.divide side limit).1 ++ (ladder.divide side limit).2 = ladder := by
  simp only [divide]
  induction ladder with
  | nil => rfl
  | cons first rest ih =>
      obtain ⟨worse, tail⟩ := List.pairwise_cons.mp sorted
      by_cases within : side.crosses limit first.price = true
      · simp only [List.filter_cons, within, ↓reduceIte, Bool.not_true, Bool.false_eq_true,
          List.cons_append, ih tail]
      · -- behind the first level beyond the limit all are worse
        have beyond : ∀ level ∈ rest, ¬ side.crosses limit level.price = true :=
          fun level member => Side.not_crosses_of_better within (worse level member)
        have none : rest.filter (fun level => side.crosses limit level.price) = [] :=
          List.filter_eq_nil_iff.mpr beyond
        have all : rest.filter (fun level => !side.crosses limit level.price) = rest :=
          List.filter_eq_self.mpr fun level member => by simp [beyond level member]
        simp [within, none, all]

theorem beyond_cons {side : Side} {limit : Decimal} (level : PriceLevel)
    (within : side.crosses limit level.price = true) (rest : Ladder) :
    (divide side limit (level :: rest)).2 = (divide side limit rest).2 := by
  simp [divide, within]

theorem beyond_keep {side : Side} {limit : Decimal} {level : PriceLevel}
    (within : side.crosses limit level.price = true) (orders : OrderQueue) (rest : Ladder) :
    (divide side limit (keep level orders rest)).2 = (divide side limit rest).2 := by
  unfold keep
  split_ifs
  · rfl
  · exact beyond_cons { level with orders } within rest

theorem WellFormed.divide {symbol : String} {side : Side} {ladder : Ladder}
    (formed : WellFormed symbol side ladder) (taker : Side) (limit : Decimal) :
    WellFormed symbol side (ladder.divide taker limit).1 ∧
      WellFormed symbol side (ladder.divide taker limit).2 :=
  ⟨formed.sublist List.filter_sublist, formed.sublist List.filter_sublist⟩

end Ladder

end SpotExchange
