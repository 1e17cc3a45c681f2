import SelfWiring.Json.Form
import SelfWiring.Program

/-! # Queues

A list of the store used as a queue of written items. Whoever pushes also signals, so that a task
that waits on the queue looks again at once; items that arrive without a signal are found when the
waiting time is up.
-/

namespace SelfWiring.Queue

open SelfWiring.Action (call)

/-- Append an item and wake one task that waits. -/
def push (queue item : String) : Action StoreError Unit := do
  call (.push queue item)
  Program.signal queue

/-- Take the item at the head, if there is one. An item that cannot be read is lost. -/
def tryPop (queue : String) (read? : String → Option α) : Action StoreError (Option α) := do
  match ← call (.pop queue) with
  | none => return none
  | some item =>
    match read? item with
    | some a => return some a
    | none => throw (.codec "malformed item")

def len (queue : String) : Action StoreError Nat := call (.len queue)

/-- What one look at a queue came to. -/
inductive Look (α : Type) where
  | item (a : α)
  | failed (e : StoreError)
  /-- A stop was asked for before the queue was looked at. -/
  | stopped
  /-- The queue was empty; the task has waited since. -/
  | waited

/-- Look at a queue once through a retry policy, and wait when it is empty. -/
def look (queue : String) (read? : String → Option α) (interval : Nat)
    (retrying : Action StoreError (Option α) → Action StoreError (Option α)) :
    Program (Look α) := do
  if ← Program.stopping then return .stopped
  else
    match ← (retrying (tryPop queue read?)).run with
    | .ok (some a) => return .item a
    | .error e => return .failed e
    | .ok none =>
      Program.await (some queue) interval
      return .waited

end SelfWiring.Queue
