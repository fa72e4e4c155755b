/-!
Counters by label: incoming orders by outcome, trades, events that could not be
delivered, and matching passes.
-/

namespace SpotExchange

/-- Counts by label. A label appears once it has been counted. -/
abbrev Counter (α : Type) := List (α × Nat)

namespace Counter

variable {α : Type} [DecidableEq α]

def add (label : α) (count : Nat) : Counter α → Counter α
  | [] => [(label, count)]
  | (known, total) :: rest =>
    if known = label then (known, total + count) :: rest
    else (known, total) :: Counter.add label count rest

def total (counter : Counter α) (label : α) : Nat := (counter.lookup label).getD 0

end Counter

structure Metrics where
  orders : Counter (String × String)
  trades : Counter String
  sinkFailures : Counter String
  passes : Counter String
  deriving DecidableEq

namespace Metrics

def empty : Metrics := ⟨[], [], [], []⟩

def countPass (metrics : Metrics) (symbol : String) : Metrics :=
  { metrics with passes := metrics.passes.add symbol 1 }

def countOrder (metrics : Metrics) (outcome symbol : String) : Metrics :=
  { metrics with orders := metrics.orders.add (outcome, symbol) 1 }

def countTrades (metrics : Metrics) (symbol : String) (count : Nat) : Metrics :=
  if count = 0 then metrics else { metrics with trades := metrics.trades.add symbol count }

def countSinkFailure (metrics : Metrics) (symbol : String) : Metrics :=
  { metrics with sinkFailures := metrics.sinkFailures.add symbol 1 }

end Metrics

end SpotExchange
