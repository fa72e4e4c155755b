import SpotExchange.Proofs.RoundedValue
import SpotExchange.Proofs.TradeStep

/-!
Alike data: the same but for the places its decimals are written with. Every operation
on orders, queues, ladders and depth views takes alike data to alike results, and
overflows on both or on neither.
-/

namespace SpotExchange

section Agreement
variable {α β γ δ : Type}

/-- Two computations with related results, or that overflow in the same operation. -/
inductive Agree (related : α → β → Prop) : Except Overflow α → Except Overflow β → Prop
  | ok {a : α} {b : β} (results : related a b) : Agree related (.ok a) (.ok b)
  | error (cause : Overflow) : Agree related (.error cause) (.error cause)

variable {related : α → β → Prop} {result : γ → δ → Prop}

theorem Agree.bind {first : Except Overflow α} {second : Except Overflow β}
    {next : α → Except Overflow γ} {other : β → Except Overflow δ}
    (start : Agree related first second)
    (more : ∀ {a b}, related a b → Agree result (next a) (other b)) :
    Agree result (first >>= next) (second >>= other) := by
  cases start with
  | ok results => exact more results
  | error cause => exact .error cause

theorem Agree.ite {p q : Prop} [Decidable p] [Decidable q] {yes no : Except Overflow γ}
    {yes' no' : Except Overflow δ} (same : p ↔ q) (holds : p → Agree result yes yes')
    (fails : ¬ p → Agree result no no') :
    Agree result (if p then yes else no) (if q then yes' else no') := by
  by_cases condition : p
  · rw [if_pos condition, if_pos (same.mp condition)]
    exact holds condition
  · rw [if_neg condition, if_neg (mt same.mpr condition)]
    exact fails condition

theorem Agree.of_ok {first : Except Overflow α} {second : Except Overflow β} {a : α}
    (agree : Agree related first second) (found : first = .ok a) :
    ∃ b, second = .ok b ∧ related a b := by
  subst found
  cases agree with
  | ok results => exact ⟨_, rfl, results⟩

theorem rel_map {first : Option α} {second : Option β} {image : α → γ} {other : β → δ}
    (found : Option.Rel related first second)
    (more : ∀ {a b}, related a b → result (image a) (other b)) :
    Option.Rel result (first.map image) (second.map other) := by
  cases found with
  | none => exact .none
  | some results => exact .some (more results)

end Agreement

namespace Decimal

section Values
variable {a b a' b' : Decimal}

theorem truncate_negate (a : Decimal) (places : Nat) :
    a.negate.truncate places = (a.truncate places).negate := by
  by_cases fewer : a.scale ≤ places
  · rw [truncate, dif_pos (show a.negate.scale ≤ places from fewer), truncate, dif_pos fewer]
  · rw [truncate, dif_neg (show ¬ a.negate.scale ≤ places from fewer), truncate, dif_neg fewer]
    simp only [negate, Int.neg_tdiv]

theorem agree_of_map {first second : Except Overflow Decimal}
    (same : first.map value = second.map value) : Agree (· ≈ ·) first second := by
  cases first <;> cases second
  · cases same
    exact .error _
  · cases same
  · cases same
  · exact .ok ((equiv_iff_value _ _).mpr (Except.ok.inj same))

variable (left : a ≈ a') (right : b ≈ b')
include left right

theorem le_congr : a ≤ b ↔ a' ≤ b' := by
  rw [equiv_iff_value] at left right
  rw [le_iff_value, le_iff_value, left, right]

theorem lt_congr : a < b ↔ a' < b' := by
  rw [equiv_iff_value] at left right
  rw [lt_iff_value, lt_iff_value, left, right]

theorem equiv_congr : a ≈ b ↔ a' ≈ b' := by
  rw [equiv_iff_value] at left right
  rw [equiv_iff_value, equiv_iff_value, left, right]

theorem min_alike : a.min b ≈ a'.min b' := by
  rw [equiv_iff_value] at left right ⊢
  rw [value_min, value_min, left, right]

theorem max_alike : a.max b ≈ a'.max b' := by
  rw [equiv_iff_value] at left right ⊢
  rw [value_max, value_max, left, right]

theorem add_alike : Agree (· ≈ ·) (a.add b) (a'.add b') := by
  rw [equiv_iff_value] at left right
  exact agree_of_map (by rw [map_add, map_add, left, right])

theorem sub_alike : Agree (· ≈ ·) (a.sub b) (a'.sub b') := by
  rw [equiv_iff_value] at left right
  exact agree_of_map (by rw [map_sub, map_sub, left, right])

theorem mul_alike : Agree (· ≈ ·) (a.mul b) (a'.mul b') := by
  rw [equiv_iff_value] at left right
  exact agree_of_map (by rw [map_mul, map_mul, left, right])

theorem div_alike (positive : 0 < b) : Agree (· ≈ ·) (a.div b) (a'.div b') := by
  have nonzero := (pos_iff.mp positive).ne'
  rw [equiv_iff_value] at left right
  have nonzero' := nonzero
  rw [right] at nonzero'
  exact agree_of_map (by rw [map_div a nonzero, map_div a' nonzero', left, right])

omit right

theorem truncate_alike (places : Nat) : a.truncate places ≈ a'.truncate places := by
  rw [equiv_iff_value] at left ⊢
  have scale := tenTo_ne_zero_rat places
  have above {c c' : Decimal} (same : c.value = c'.value) (nonneg : 0 ≤ c.value) :
      (c.truncate places).value = (c'.truncate places).value := by
    apply mul_right_cancel₀ scale
    rw [truncate_floor places nonneg, truncate_floor places (same ▸ nonneg), same]
  rcases le_total 0 a.value with nonneg | negative
  · exact above left nonneg
  · -- below zero the digits of the opposite are cut
    have mirrored : (a.negate.truncate places).value = (a'.negate.truncate places).value :=
      above (by simp [left]) (by simpa using negative)
    rwa [truncate_negate, truncate_negate, value_negate, value_negate, neg_inj] at mirrored

end Values

end Decimal

namespace Side

theorem better_alike (side : Side) {a b a' b' : Decimal} (left : a ≈ a') (right : b ≈ b') :
    side.better a b = side.better a' b' := by
  cases side <;> simp only [better, Decimal.lt_congr left right, Decimal.lt_congr right left]

theorem crosses_alike (side : Side) {a b a' b' : Decimal} (left : a ≈ a') (right : b ≈ b') :
    side.crosses a b = side.crosses a' b' := by
  cases side <;> simp only [crosses, Decimal.le_congr left right, Decimal.le_congr right left]

end Side

/-- Orders that differ in nothing but the places of their decimals. -/
structure Order.Alike (a b : Order) : Prop where
  number : a.number = b.number
  userId : a.userId = b.userId
  symbol : a.symbol = b.symbol
  kind : a.kind = b.kind
  side : a.side = b.side
  price : a.price ≈ b.price
  amount : a.amount ≈ b.amount
  filledAmount : a.filledAmount ≈ b.filledAmount
  filledMoney : a.filledMoney ≈ b.filledMoney
  status : a.status = b.status
  createdAt : a.createdAt = b.createdAt

structure Trade.Alike (now now' : Instant) (a b : Trade) : Prop where
  symbol : a.symbol = b.symbol
  price : a.price ≈ b.price
  amount : a.amount ≈ b.amount
  money : a.money ≈ b.money
  buyNumber : a.buyNumber = b.buyNumber
  buyUserId : a.buyUserId = b.buyUserId
  sellNumber : a.sellNumber = b.sellNumber
  sellUserId : a.sellUserId = b.sellUserId
  takerSide : a.takerSide = b.takerSide
  dates : a.createdAt = now ∧ b.createdAt = now'

namespace Order

section Alike
variable {a b : Order} (alike : a.Alike b)
include alike

theorem Alike.marketBuy : a.isMarketBuy = b.isMarketBuy := by
  rw [isMarketBuy, isMarketBuy, alike.kind, alike.side]

theorem Alike.isCompleted : a.isCompleted = b.isCompleted := by
  simp only [Order.isCompleted, alike.marketBuy, alike.status,
    Decimal.le_congr alike.amount alike.filledMoney,
    Decimal.le_congr alike.amount alike.filledAmount]

theorem Alike.done_iff : a.isCompleted = true ↔ b.isCompleted = true := by
  rw [alike.isCompleted]

theorem Alike.remaining : Agree (· ≈ ·) a.remaining b.remaining :=
  Decimal.sub_alike alike.amount alike.filledAmount

theorem Alike.availableAt {price price' : Decimal} (near : price ≈ price') (places : Nat) :
    Agree (· ≈ ·) (a.availableAt price places) (b.availableAt price' places) := by
  have zero : (0 : Decimal) ≈ 0 := Decimal.equiv_rfl
  refine .ite (by rw [alike.marketBuy]) (fun _ => ?_) (fun _ => ?_)
  · refine .ite (Decimal.le_congr near zero) (fun _ => .ok zero) (fun priced => ?_)
    refine .bind (Decimal.sub_alike alike.amount alike.filledMoney) fun left => ?_
    refine .ite (Decimal.le_congr left zero) (fun _ => .ok zero) (fun _ => ?_)
    rw [Decimal.not_nonpos_iff, ← Decimal.pos_iff] at priced
    exact .bind (Decimal.div_alike left near priced) fun same =>
      .ok (Decimal.truncate_alike same places)
  · exact .bind alike.remaining fun same => .ok (Decimal.max_alike same zero)

theorem Alike.settleStatus : a.settleStatus.Alike b.settleStatus := by
  have partly := Decimal.lt_congr (Decimal.equiv_rfl (a := 0)) alike.filledAmount
  simp only [Order.settleStatus, alike.isCompleted, partly]
  split_ifs
  · exact { alike with status := rfl }
  · exact { alike with status := rfl }
  · exact alike

theorem Alike.fill {quantity money quantity' money' : Decimal} (filled : quantity ≈ quantity')
    (paid : money ≈ money') :
    Agree Order.Alike (a.fill quantity money) (b.fill quantity' money') := by
  refine .ite (by rw [alike.status]) (fun _ => .ok alike) (fun _ => ?_)
  refine .bind (Decimal.add_alike alike.filledAmount filled) fun {sum sum'} filledAmount => ?_
  refine .bind (Decimal.add_alike alike.filledMoney paid) fun {spent spent'} filledMoney => ?_
  have later : Alike { a with filledAmount := sum, filledMoney := spent }
      { b with filledAmount := sum', filledMoney := spent' } :=
    { alike with filledAmount, filledMoney }
  exact .ok later.settleStatus

theorem Alike.cancel : a.cancel.Alike b.cancel := by
  simp only [Order.cancel, alike.status]
  split_ifs
  · exact alike
  · exact { alike with status := rfl }

end Alike

theorem Alike.refl (order : Order) : order.Alike order :=
  ⟨rfl, rfl, rfl, rfl, rfl, Decimal.equiv_rfl, Decimal.equiv_rfl, Decimal.equiv_rfl,
    Decimal.equiv_rfl, rfl, rfl⟩

theorem Alike.between {taker maker taker' maker' : Order}
    {price amount money price' amount' money' : Decimal} (now now' : Instant)
    (takers : taker.Alike taker') (makers : maker.Alike maker') (prices : price ≈ price')
    (amounts : amount ≈ amount') (moneys : money ≈ money') :
    Trade.Alike now now' (Trade.between taker maker price amount money now)
      (Trade.between taker' maker' price' amount' money' now') := by
  cases side : taker.side with
  | buy =>
      simp only [Trade.between, side, ← takers.side]
      exact ⟨takers.symbol, prices, amounts, moneys, takers.number, takers.userId, makers.number,
        makers.userId, rfl, rfl, rfl⟩
  | sell =>
      simp only [Trade.between, side, ← takers.side]
      exact ⟨takers.symbol, prices, amounts, moneys, makers.number, makers.userId, takers.number,
        takers.userId, rfl, rfl, rfl⟩

end Order

def OrderQueue.Alike (a b : OrderQueue) : Prop := List.Forall₂ Order.Alike a b

structure PriceLevel.Alike (a b : PriceLevel) : Prop where
  price : a.price ≈ b.price
  orders : OrderQueue.Alike a.orders b.orders

def Ladder.Alike (a b : Ladder) : Prop := List.Forall₂ PriceLevel.Alike a b

section Lists
variable {α β : Type} {related : α → β → Prop} {a : List α} {b : List β}

theorem isEmpty_forall₂ (alike : List.Forall₂ related a b) : a.isEmpty = b.isEmpty := by
  cases alike <;> rfl

theorem filter_forall₂ {keep : α → Bool} {keep' : β → Bool} (alike : List.Forall₂ related a b)
    (same : ∀ {x y}, related x y → keep x = keep' y) :
    List.Forall₂ related (a.filter keep) (b.filter keep') := by
  induction alike with
  | nil => exact .nil
  | cons first _ ih =>
      rw [List.filter_cons, List.filter_cons, same first]
      split_ifs
      · exact .cons first ih
      · exact ih

end Lists

namespace OrderQueue

variable {a b : OrderQueue}

theorem Alike.extract? (alike : a.Alike b) (number : String) :
    Option.Rel (fun found found' => found.1.Alike found'.1 ∧ OrderQueue.Alike found.2 found'.2)
      (OrderQueue.extract? number a) (OrderQueue.extract? number b) := by
  induction alike with
  | nil => exact .none
  | @cons order order' rest rest' first others ih =>
      rw [OrderQueue.extract?, OrderQueue.extract?, first.number]
      split_ifs
      · exact .some ⟨first, others⟩
      · exact rel_map ih fun found => ⟨found.1, .cons first found.2⟩

theorem Alike.refl (queue : OrderQueue) : queue.Alike queue :=
  List.forall₂_same.mpr fun order _ => .refl order

theorem Alike.separate (alike : a.Alike b) :
    OrderQueue.Alike (OrderQueue.separate a).1 (OrderQueue.separate b).1 ∧
      OrderQueue.Alike (OrderQueue.separate a).2 (OrderQueue.separate b).2 :=
  ⟨filter_forall₂ alike fun same => same.isCompleted,
    filter_forall₂ alike fun same => by rw [same.isCompleted]⟩

end OrderQueue

namespace Ladder

variable {a b : Ladder}

theorem Alike.append (alike : a.Alike b) (side : Side) {order order' : Order}
    (same : order.Alike order') : (a.append side order).Alike (b.append side order') := by
  induction alike with
  | nil => exact .cons ⟨same.price, .cons same .nil⟩ .nil
  | @cons level level' rest rest' first others ih =>
      -- prices are compared by value, so both orders join a level or open one at the same place
      simp only [Ladder.append, Decimal.equiv_congr first.price same.price,
        side.better_alike same.price first.price]
      split_ifs
      · exact .cons ⟨first.price, List.rel_append first.orders (.cons same .nil)⟩ others
      · exact .cons ⟨same.price, .cons same .nil⟩ (.cons first others)
      · exact .cons first ih

theorem Alike.keep (alike : a.Alike b) {level level' : PriceLevel} (first : level.Alike level')
    {orders orders' : OrderQueue} (left : orders.Alike orders') :
    (Ladder.keep level orders a).Alike (Ladder.keep level' orders' b) := by
  rw [Ladder.keep, Ladder.keep, isEmpty_forall₂ left]
  split_ifs
  · exact alike
  · exact .cons ⟨first.price, left⟩ alike

theorem Alike.extract? (alike : a.Alike b) {price price' : Decimal} (near : price ≈ price')
    (number : String) :
    Option.Rel (fun found found' => found.1.Alike found'.1 ∧ Ladder.Alike found.2 found'.2)
      (Ladder.extract? price number a) (Ladder.extract? price' number b) := by
  induction alike with
  | nil => exact .none
  | @cons level level' rest rest' first others ih =>
      simp only [Ladder.extract?, Decimal.equiv_congr first.price near]
      split_ifs
      · exact rel_map (first.orders.extract? number) fun found =>
          ⟨found.1, Alike.keep others first found.2⟩
      · exact rel_map ih fun found => ⟨found.1, .cons first found.2⟩

theorem Alike.divide (alike : a.Alike b) (side : Side) {limit limit' : Decimal}
    (near : limit ≈ limit') :
    Ladder.Alike (a.divide side limit).1 (b.divide side limit').1 ∧
      Ladder.Alike (a.divide side limit).2 (b.divide side limit').2 :=
  ⟨filter_forall₂ alike fun same => side.crosses_alike near same.price,
    filter_forall₂ alike fun same => by rw [side.crosses_alike near same.price]⟩

end Ladder

structure DepthRow.Alike (a b : DepthRow) : Prop where
  price : a.price ≈ b.price
  amount : a.amount ≈ b.amount

structure DepthView.Alike (a b : DepthView) : Prop where
  side : a.side = b.side
  maxDepth : a.maxDepth = b.maxDepth
  rows : List.Forall₂ DepthRow.Alike a.rows b.rows

def DepthDeltas.Alike (a b : DepthDeltas) : Prop :=
  List.Forall₂ (fun taken taken' => taken.1 ≈ taken'.1 ∧ taken.2 ≈ taken'.2) a b

theorem DepthDeltas.Alike.add {a b : DepthDeltas} (alike : a.Alike b)
    {price amount price' amount' : Decimal} (near : price ≈ price') (same : amount ≈ amount') :
    Agree DepthDeltas.Alike (a.add price amount) (b.add price' amount') := by
  induction alike with
  | nil => exact .ok (.cons ⟨near, same⟩ .nil)
  | @cons first first' rest rest' known others ih =>
      refine .ite (Decimal.equiv_congr known.1 near) (fun _ => ?_) (fun _ => ?_)
      · exact .bind (Decimal.add_alike known.2 same) fun sum => .ok (.cons ⟨known.1, sum⟩ others)
      · refine .ite (Decimal.lt_congr near known.1) (fun _ => ?_) (fun _ => ?_)
        · exact .ok (.cons ⟨near, same⟩ (.cons known others))
        · exact .bind ih fun later => .ok (.cons known later)

namespace DepthView

section Rows
variable {rows rows' : List DepthRow} {price amount price' amount' : Decimal}

theorem insertRow_alike (side : Side) (near : price ≈ price') (same : amount ≈ amount')
    (alike : List.Forall₂ DepthRow.Alike rows rows') (room : Nat) :
    Agree (Option.Rel (List.Forall₂ DepthRow.Alike)) (insertRow side price amount room rows)
      (insertRow side price' amount' room rows') := by
  induction alike generalizing room with
  | nil =>
      cases room with
      | zero => exact .ok .none
      | succ room => exact .ok (.some (.cons ⟨near, same⟩ .nil))
  | @cons row row' rest rest' first others ih =>
      rw [insertRow, insertRow]
      refine .ite (Decimal.equiv_congr first.price near) (fun _ => ?_) (fun _ => ?_)
      · exact .bind (Decimal.add_alike first.amount same) fun sum =>
          .ok (.some (.cons ⟨first.price, sum⟩ others))
      · refine .ite (by rw [side.better_alike near first.price]) (fun _ => ?_) (fun _ => ?_)
        · split_ifs
          · exact .ok .none
          · exact .ok (.some (List.forall₂_take room (.cons ⟨near, same⟩ (.cons first others))))
        · exact .bind (ih (room - 1)) fun found =>
            .ok (rel_map found fun later => .cons first later)

theorem removeRow_alike (near : price ≈ price') (same : amount ≈ amount')
    (alike : List.Forall₂ DepthRow.Alike rows rows') :
    Agree (Option.Rel (List.Forall₂ DepthRow.Alike)) (removeRow price amount rows)
      (removeRow price' amount' rows') := by
  induction alike with
  | nil => exact .ok .none
  | @cons row row' rest rest' first others ih =>
      refine .ite (Decimal.equiv_congr first.price near) (fun _ => ?_) (fun _ => ?_)
      · refine .bind (Decimal.sub_alike first.amount same) fun left => ?_
        simp only [Decimal.le_congr left Decimal.equiv_rfl]
        split_ifs
        · exact .ok (.some others)
        · exact .ok (.some (.cons ⟨first.price, left⟩ others))
      · exact .bind ih fun found => .ok (rel_map found fun later => .cons first later)

end Rows

def AlikeChange (a b : Bool × DepthView) : Prop := a.1 = b.1 ∧ a.2.Alike b.2

section Views
variable {a b : DepthView} (alike : a.Alike b)
include alike

theorem Alike.insert {order order' : Order} (same : order.Alike order') :
    Agree AlikeChange (a.insert order) (b.insert order') := by
  refine .ite (by simp only [covers, same.kind, same.side, alike.side]) (fun _ => ?_)
    (fun _ => .ok ⟨rfl, alike⟩)
  refine .bind same.remaining fun left => ?_
  refine .ite (Decimal.le_congr left Decimal.equiv_rfl) (fun _ => .ok ⟨rfl, alike⟩) (fun _ => ?_)
  have inserted := insertRow_alike a.side same.price left alike.rows a.maxDepth
  nth_rewrite 2 [alike.side, alike.maxDepth] at inserted
  refine .bind inserted fun found => ?_
  cases found with
  | none => exact .ok ⟨rfl, alike⟩
  | some rows => exact .ok ⟨rfl, { alike with rows }⟩

theorem Alike.removeAt {price amount price' amount' : Decimal} (near : price ≈ price')
    (same : amount ≈ amount') :
    Agree AlikeChange (a.removeAt price amount) (b.removeAt price' amount') := by
  refine .bind (removeRow_alike near same alike.rows) fun found => ?_
  cases found with
  | none => exact .ok ⟨rfl, alike⟩
  | some rows => exact .ok ⟨rfl, { alike with rows }⟩

omit alike in
theorem Alike.removeMany {a b : DepthView} (alike : a.Alike b) {deltas deltas' : DepthDeltas}
    (taken : deltas.Alike deltas') :
    Agree AlikeChange (a.removeMany deltas) (b.removeMany deltas') := by
  induction taken generalizing a b with
  | nil => exact .ok ⟨rfl, alike⟩
  | @cons first first' rest rest' same others ih =>
      refine .bind (alike.removeAt same.1 same.2) fun {one two} step => ?_
      refine .bind (ih step.2) fun {one two} later => .ok ⟨?_, later.2⟩
      simp only [step.1, later.1]

theorem Alike.remove {order order' : Order} (same : order.Alike order') {amount amount' : Decimal}
    (left : amount ≈ amount') :
    Agree AlikeChange (a.remove order amount) (b.remove order' amount') :=
  .ite (by simp only [covers, same.kind, same.side, alike.side])
    (fun _ => alike.removeAt same.price left) (fun _ => .ok ⟨rfl, alike⟩)

end Views

end DepthView

end SpotExchange
