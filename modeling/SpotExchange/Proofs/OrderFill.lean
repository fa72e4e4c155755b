import SpotExchange.Proofs.DecimalValue
import SpotExchange.Order

/-!
What executions do to an order. The terms of an order never change; what it has
filled is the sum of its executions, added in their order, and an order that is
closed takes none.
-/

namespace SpotExchange

section Overflowing
variable {α β : Type}

theorem bind_eq_ok (first : Except Overflow α) (next : α → Except Overflow β) (result : β) :
    (first >>= next) = .ok result ↔ ∃ value, first = .ok value ∧ next value = .ok result := by
  cases first <;> simp [bind, Except.bind]

theorem return_eq_ok (value result : α) :
    (pure value : Except Overflow α) = .ok result ↔ value = result := by
  simp [pure, Except.pure]

end Overflowing

namespace Order

/-- What an order asks for, without what came of it. -/
def terms (order : Order) : Order :=
  { order with filledAmount := 0, filledMoney := 0, status := .opened }

section SameTerms
variable {a b : Order} (same : a.terms = b.terms)
include same

theorem number_of_terms : a.number = b.number :=
  show a.terms.number = b.terms.number from congrArg Order.number same

theorem userId_of_terms : a.userId = b.userId :=
  show a.terms.userId = b.terms.userId from congrArg Order.userId same

theorem symbol_of_terms : a.symbol = b.symbol :=
  show a.terms.symbol = b.terms.symbol from congrArg Order.symbol same

theorem kind_of_terms : a.kind = b.kind :=
  show a.terms.kind = b.terms.kind from congrArg Order.kind same

theorem side_of_terms : a.side = b.side :=
  show a.terms.side = b.terms.side from congrArg Order.side same

theorem price_of_terms : a.price = b.price :=
  show a.terms.price = b.terms.price from congrArg Order.price same

theorem amount_of_terms : a.amount = b.amount :=
  show a.terms.amount = b.terms.amount from congrArg Order.amount same

theorem marketBuy_of_terms : a.isMarketBuy = b.isMarketBuy := by
  rw [isMarketBuy, isMarketBuy, kind_of_terms same, side_of_terms same]

end SameTerms

theorem terms_cancel (order : Order) : order.cancel.terms = order.terms := by
  unfold cancel
  split_ifs <;> rfl

theorem filledAmount_cancel (order : Order) : order.cancel.filledAmount = order.filledAmount := by
  unfold cancel
  split_ifs <;> rfl

theorem filledMoney_cancel (order : Order) : order.cancel.filledMoney = order.filledMoney := by
  unfold cancel
  split_ifs <;> rfl

theorem not_terminal_of_open {order : Order} (live : order.isCompleted = false) :
    order.status.isTerminal = false := by
  simp only [isCompleted, Bool.or_eq_false_iff] at live
  exact live.1

/-- Whether the quantity, or the money of a market buy, is used up. -/
def Spent (order : Order) : Prop :=
  if order.isMarketBuy then order.amount ≤ order.filledMoney else order.amount ≤ order.filledAmount

theorem isCompleted_iff (order : Order) :
    order.isCompleted = true ↔ order.status.isTerminal = true ∨ order.Spent := by
  rw [isCompleted, Spent, Bool.or_eq_true]
  split <;> simp

/-- What settling the status of an open order leaves: the status is `filled` when
the order is spent, and closes nothing otherwise. -/
theorem settleStatus_of_open (order : Order) (live : order.status.isTerminal = false) :
    ∃ status, order.settleStatus = { order with status } ∧
      (order.Spent → status = .filled) ∧ (¬ order.Spent → status.isTerminal = false) := by
  have done := order.isCompleted_iff
  rw [live] at done
  simp only [Bool.false_eq_true, false_or] at done
  unfold settleStatus
  split_ifs with spent partly
  · exact ⟨.filled, rfl, fun _ => rfl, fun unspent => absurd (done.mp spent) unspent⟩
  · exact ⟨.partiallyFilled, rfl, fun all => absurd (done.mpr all) spent, fun _ => rfl⟩
  · exact ⟨order.status, rfl, fun all => absurd (done.mpr all) spent, fun _ => live⟩

theorem fill_of_open {order later : Order} {quantity money : Decimal}
    (live : order.status.isTerminal = false) (filled : order.fill quantity money = .ok later) :
    order.filledAmount.add quantity = .ok later.filledAmount ∧
      order.filledMoney.add money = .ok later.filledMoney ∧ later.terms = order.terms ∧
      (later.isCompleted = true ↔ later.Spent) ∧ (later.Spent → later.status = .filled) := by
  simp only [fill, live, Bool.false_eq_true, ↓reduceIte, bind_eq_ok, return_eq_ok] at filled
  obtain ⟨filledAmount, added, filledMoney, paid, same⟩ := filled
  obtain ⟨status, settled, closed, kept⟩ :=
    settleStatus_of_open { order with filledAmount, filledMoney } live
  rw [settled] at same
  subst same
  refine ⟨added, paid, rfl, ?_, closed⟩
  rw [isCompleted_iff]
  constructor
  · rintro (terminal | spent)
    · by_contra unspent
      exact Bool.false_ne_true ((kept unspent).symm.trans terminal)
    · exact spent
  · exact Or.inr

theorem terms_fill {order later : Order} {quantity money : Decimal}
    (filled : order.fill quantity money = .ok later) : later.terms = order.terms := by
  cases closed : order.status.isTerminal with
  | true =>
      simp only [fill, closed, ↓reduceIte, Except.ok.injEq] at filled
      rw [filled]
  | false =>
      obtain ⟨-, -, same, -, -⟩ := fill_of_open closed filled
      exact same

theorem status_of_fill {order later : Order} {quantity money : Decimal}
    (live : order.status.isTerminal = false) (filled : order.fill quantity money = .ok later)
    (done : later.isCompleted = true) : later.status = .filled := by
  obtain ⟨-, -, -, spent, closed⟩ := fill_of_open live filled
  exact closed (spent.mp done)

theorem cancel_of_open {order : Order} (live : order.isCompleted = false) :
    order.cancel = { order with status := .cancelled } := by
  simp [cancel, not_terminal_of_open live]

theorem status_cancel {order : Order} (live : order.isCompleted = false) :
    order.cancel.status = .cancelled := by
  rw [cancel_of_open live]

/-- The order after these executions, one by one; none once it refuses one. -/
def afterTrades (order : Order) : List Trade → Except Overflow (Option Order)
  | [] => .ok (some order)
  | trade :: rest =>
    if order.status.isTerminal then .ok none
    else do
      (← order.fill trade.amount trade.money).afterTrades rest

theorem afterTrades_append {order last : Order} {earlier later : List Trade} :
    order.afterTrades (earlier ++ later) = .ok (some last) ↔
      ∃ middle, order.afterTrades earlier = .ok (some middle) ∧
        middle.afterTrades later = .ok (some last) := by
  induction earlier generalizing order with
  | nil => simp [afterTrades]
  | cons trade rest ih =>
      cases closed : order.status.isTerminal with
      | true => simp [afterTrades, closed]
      | false =>
          simp only [List.cons_append, afterTrades, closed, Bool.false_eq_true, ↓reduceIte,
            bind_eq_ok, ih]
          constructor
          · rintro ⟨next, filled, middle, before, after⟩
            exact ⟨middle, ⟨next, filled, before⟩, after⟩
          · rintro ⟨middle, ⟨next, filled, before⟩, after⟩
            exact ⟨next, filled, middle, before, after⟩

theorem afterTrades_one {order later : Order} {trade : Trade}
    (live : order.status.isTerminal = false)
    (filled : order.fill trade.amount trade.money = .ok later) :
    order.afterTrades [trade] = .ok (some later) := by
  simp only [afterTrades, live, Bool.false_eq_true, ↓reduceIte, bind_eq_ok]
  exact ⟨later, filled, rfl⟩

theorem of_afterTrades_cons {order last : Order} {trade : Trade} {rest : List Trade}
    (followed : order.afterTrades (trade :: rest) = .ok (some last)) :
    order.status.isTerminal = false ∧ ∃ next,
      order.fill trade.amount trade.money = .ok next ∧ next.afterTrades rest = .ok (some last) := by
  cases closed : order.status.isTerminal with
  | true => simp [afterTrades, closed] at followed
  | false =>
      simp only [afterTrades, closed, Bool.false_eq_true, ↓reduceIte, bind_eq_ok] at followed
      exact ⟨rfl, followed⟩

theorem terms_afterTrades {order last : Order} {trades : List Trade}
    (followed : order.afterTrades trades = .ok (some last)) : last.terms = order.terms := by
  induction trades generalizing order with
  | nil =>
      simp only [afterTrades, Except.ok.injEq, Option.some.injEq] at followed
      rw [followed]
  | cons trade rest ih =>
      obtain ⟨-, next, filled, after⟩ := of_afterTrades_cons followed
      exact (ih after).trans (terms_fill filled)

/-- What an order has filled is what it had before, plus its executions added
from left to right. -/
theorem filled_afterTrades {order last : Order} {trades : List Trade}
    (followed : order.afterTrades trades = .ok (some last)) :
    (trades.map Trade.amount).foldlM Decimal.add order.filledAmount = .ok last.filledAmount ∧
      (trades.map Trade.money).foldlM Decimal.add order.filledMoney = .ok last.filledMoney := by
  induction trades generalizing order with
  | nil =>
      simp only [afterTrades, Except.ok.injEq, Option.some.injEq] at followed
      subst followed
      exact ⟨rfl, rfl⟩
  | cons trade rest ih =>
      obtain ⟨live, next, filled, after⟩ := of_afterTrades_cons followed
      obtain ⟨added, paid, -, -, -⟩ := fill_of_open live filled
      obtain ⟨amounts, moneys⟩ := ih after
      simp only [List.map_cons, List.foldlM_cons, bind_eq_ok]
      exact ⟨⟨next.filledAmount, added, amounts⟩, ⟨next.filledMoney, paid, moneys⟩⟩

end Order

theorem Trade.between_of_terms {taker taker' maker maker' : Order} (price amount money : Decimal)
    (now : Instant) (takers : taker.terms = taker'.terms) (makers : maker.terms = maker'.terms) :
    Trade.between taker maker price amount money now =
      Trade.between taker' maker' price amount money now := by
  simp only [Trade.between, Order.symbol_of_terms takers, Order.side_of_terms takers]
  cases taker'.side <;>
    simp only [Order.number_of_terms takers, Order.number_of_terms makers,
      Order.userId_of_terms takers, Order.userId_of_terms makers]

section Between
variable (taker maker : Order) (price amount money : Decimal) (now : Instant)

@[simp] theorem Trade.between_price :
    (Trade.between taker maker price amount money now).price = price := rfl

@[simp] theorem Trade.between_amount :
    (Trade.between taker maker price amount money now).amount = amount := rfl

@[simp] theorem Trade.between_money :
    (Trade.between taker maker price amount money now).money = money := rfl

end Between

def Trade.names (trade : Trade) (number : String) : Bool :=
  trade.buyNumber = number || trade.sellNumber = number

theorem Trade.names_between (taker maker : Order) (price amount money : Decimal) (now : Instant)
    (number : String) :
    (Trade.between taker maker price amount money now).names number = true ↔
      taker.number = number ∨ maker.number = number := by
  cases side : taker.side <;> simp [Trade.between, Trade.names, side, or_comm]

def Trade.naming (number : String) (trades : List Trade) : List Trade :=
  trades.filter fun trade => trade.names number

theorem Trade.naming_append (number : String) (earlier later : List Trade) :
    Trade.naming number (earlier ++ later) =
      Trade.naming number earlier ++ Trade.naming number later := List.filter_append _ _

theorem Trade.naming_self {number : String} {trades : List Trade}
    (named : ∀ trade ∈ trades, trade.names number = true) : Trade.naming number trades = trades :=
  List.filter_eq_self.mpr named

theorem Trade.naming_eq_nil {number : String} {trades : List Trade}
    (others : ∀ trade ∈ trades, ¬ trade.names number = true) : Trade.naming number trades = [] :=
  List.filter_eq_nil_iff.mpr others

end SpotExchange
