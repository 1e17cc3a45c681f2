import SelfWiring.Event

/-! # Observing events

Events are kept in a buffer that holds the latest of them. A reader goes through the events in
order, each at its own pace. One that falls too far behind is told how many it has missed and goes
on with the oldest event that is still there.
-/

namespace SelfWiring

/-- A place in the sequence of events. -/
structure Reader where
  /-- How many events have been passed. -/
  passed : Nat
  deriving DecidableEq

namespace Reader

/-- The smallest power of two that is not below a capacity. -/
def roundUp (capacity : Nat) : Nat :=
  if capacity ≤ 1 then 1 else Nat.pow 2 (Nat.log2 (capacity - 1) + 1)

/-- What a reader finds. -/
inductive Reading where
  | event (e : Event)
  | lagged (missed : Nat)
  /-- All events have been read. -/
  | upToDate
  deriving DecidableEq

/-- A reader of the events still to come. -/
def atEnd (events : List Event) : Reader := ⟨events.length⟩

/-- The next thing that a reader finds when the buffer holds `capacity` events. -/
def next (capacity : Nat) (events : List Event) (r : Reader) : Reading × Reader :=
  let oldest := events.length - capacity
  if r.passed < oldest then (.lagged (oldest - r.passed), ⟨oldest⟩)
  else match events[r.passed]? with
    | some e => (.event e, ⟨r.passed + 1⟩)
    | none => (.upToDate, r)

/-- How many events a reader of a buffer of `capacity` has missed, and those it still finds. -/
def catchUp (capacity : Nat) (events : List Event) (r : Reader) : Nat × List Event :=
  let oldest := events.length - capacity
  (oldest - r.passed, events.drop (max oldest r.passed))

/-- The next output among events that belongs to a session, and the number of events up to it. -/
def outputIn (session : String) : List Event → Option (String × Nat)
  | [] => none
  | .emitted s _ output :: rest =>
    if s = session then some (output, 1)
    else (outputIn session rest).map fun (o, n) => (o, n + 1)
  | _ :: rest => (outputIn session rest).map fun (o, n) => (o, n + 1)

/-- The next output of a session that a reader finds; missed events are passed over. -/
def nextOutput (capacity : Nat) (events : List Event) (session : String) (r : Reader) :
    Option String × Reader :=
  let (missed, found) := r.catchUp capacity events
  match outputIn session found with
  | some (output, n) => (some output, ⟨r.passed + missed + n⟩)
  | none => (none, atEnd events)

end Reader

end SelfWiring
