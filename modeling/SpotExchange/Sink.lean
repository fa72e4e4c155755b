import SpotExchange.Event

/-!
Sinks: where events go. A log takes them all; a channel keeps them in order for
its receiver until it is closed or full.
-/

namespace SpotExchange

/-- A channel takes `room` more events, or any number without a bound. -/
inductive Sink where
  | log
  | channel (room : Option Nat) (delivered : Array Event)

namespace Sink

def openChannel : Sink := .channel none #[]

def publish (sink : Sink) (event : Event) : Bool × Sink :=
  match sink with
  | .log => (true, .log)
  | .channel none delivered => (true, .channel none (delivered.push event))
  | .channel (some 0) delivered => (false, .channel (some 0) delivered)
  | .channel (some (room + 1)) delivered => (true, .channel (some room) (delivered.push event))

def publishAll (sink : Sink) : List Event → Bool × Sink
  | [] => (true, sink)
  | event :: rest =>
    match sink.publish event with
    | (true, sink) => sink.publishAll rest
    | (false, sink) => (false, sink)

def close : Sink → Sink
  | .log => .log
  | .channel _ delivered => .channel (some 0) delivered

def drain : Sink → List Event × Sink
  | .log => ([], .log)
  | .channel room delivered => (delivered.toList, .channel room #[])

end Sink

def Sink.closedMessage : String := "event sink closed"

end SpotExchange
