import SpotExchange.Order

/-!
Depth views: for one side, how much rests at each of the best prices. A view
holds a bounded number of rows, best price first; what is worse is dropped.
-/

namespace SpotExchange

structure DepthRow where
  price : Decimal
  amount : Decimal
  deriving DecidableEq

structure DepthView where
  side : Side
  maxDepth : Nat
  rows : List DepthRow
  deriving DecidableEq

namespace DepthView

def empty (side : Side) (maxDepth : Nat) : DepthView := ⟨side, maxDepth, []⟩

/-- Adds an amount at its price when there is a row or `room` for one. -/
def insertRow (side : Side) (price amount : Decimal) :
    (room : Nat) → List DepthRow → Except Overflow (Option (List DepthRow))
  | 0, [] => .ok none
  | _ + 1, [] => .ok (some [⟨price, amount⟩])
  | room, row :: rest =>
    if row.price ≈ price then do
      return some ({ row with amount := ← row.amount.add amount } :: rest)
    else if side.better price row.price then
      .ok (if room = 0 then none else some (List.take room (⟨price, amount⟩ :: row :: rest)))
    else do
      return (← insertRow side price amount (room - 1) rest).map (row :: ·)

def covers (view : DepthView) (order : Order) : Bool :=
  order.kind = .limit && order.side = view.side

def insert (view : DepthView) (order : Order) : Except Overflow (Bool × DepthView) :=
  if view.covers order then do
    let remaining ← order.remaining
    if remaining ≤ 0 then return (false, view)
    else
      match ← insertRow view.side order.price remaining view.maxDepth view.rows with
      | some rows => return (true, { view with rows })
      | none => return (false, view)
  else .ok (false, view)

/-- Takes an amount off the row at a price, and the row itself when nothing
positive is left. None if there is no such row. -/
def removeRow (price amount : Decimal) : List DepthRow → Except Overflow (Option (List DepthRow))
  | [] => .ok none
  | row :: rest =>
    if row.price ≈ price then do
      let left ← row.amount.sub amount
      return some (if left ≤ 0 then rest else { row with amount := left } :: rest)
    else do
      return (← removeRow price amount rest).map (row :: ·)

def removeAt (view : DepthView) (price amount : Decimal) : Except Overflow (Bool × DepthView) := do
  match ← removeRow price amount view.rows with
  | some rows => return (true, { view with rows })
  | none => return (false, view)

def removeMany (view : DepthView) : List (Decimal × Decimal) → Except Overflow (Bool × DepthView)
  | [] => .ok (false, view)
  | (price, amount) :: rest => do
    let (changed, view) ← view.removeAt price amount
    let (later, view) ← view.removeMany rest
    return (changed || later, view)

def remove (view : DepthView) (order : Order) (amount : Decimal) :
    Except Overflow (Bool × DepthView) :=
  if view.covers order then view.removeAt order.price amount else .ok (false, view)

def bestPrice? (view : DepthView) : Option Decimal := view.rows.head?.map fun row => row.price

def worstPrice? (view : DepthView) : Option Decimal := view.rows.getLast?.map fun row => row.price

end DepthView

structure DepthSnapshot where
  symbol : String
  side : Side
  best : Option Decimal
  worst : Option Decimal
  rows : List DepthRow
  deriving DecidableEq

def DepthView.snapshot (view : DepthView) (symbol : String) : DepthSnapshot :=
  { symbol, side := view.side, best := view.bestPrice?, worst := view.worstPrice?
    rows := view.rows }

end SpotExchange
