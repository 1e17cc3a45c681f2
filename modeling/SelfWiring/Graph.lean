import SelfWiring.Key
import SelfWiring.Payload
import SelfWiring.Program

/-! # The learned graph

Typed access to what is stored under the keys: which behaviours follow which, the cell that each
behaviour runs, the walks of each tree, and the texts that were handed in.

Nothing here spans several keys at once, so the order of the calls matters: a behaviour is bound
before it appears in a set, and an information record is written before the key that leads to it.
-/

namespace SelfWiring.Graph

open SelfWiring.Action (call orAbsent)

/-! ### Connections -/

/-- The behaviours that follow a producer, if it was ever explored. -/
def connections (producer : String) : Action StoreError (Option (List String)) :=
  orAbsent (call (.setMembers (Key.connections producer).render))

/-- Store the behaviours that follow a producer unless a set is stored already. Either way the
stored set is returned. -/
def initConnections (producer : String) (successors : List String) :
    Action StoreError (List String) := do
  let _ ← call (.setInit (Key.connections producer).render successors)
  call (.setMembers (Key.connections producer).render)

/-- Let a behaviour run a cell. -/
def bind (behaviour cell : String) : Action StoreError Unit :=
  call (.set (Key.binding behaviour).render cell)

def binding (behaviour : String) : Action StoreError String :=
  call (.get (Key.binding behaviour).render)

/-- Bind behaviours to their cells, one after the other. -/
def bindAll : List (String × String) → Action StoreError Unit
  | [] => return ()
  | (behaviour, cell) :: rest => do
    bind behaviour cell
    bindAll rest

/-- Bind the behaviours that follow a producer, then store them as its set. -/
def connect (producer : String) (successors : List (String × String)) :
    Action StoreError (List String) := do
  bindAll successors
  initConnections producer (successors.map (·.1))

/-! ### Trees -/

def anchorTree (tree behaviour : String) : Action StoreError Unit :=
  call (.set (Key.firstBehaviour tree).render behaviour)

def firstBehaviour (tree : String) : Action StoreError String :=
  call (.get (Key.firstBehaviour tree).render)

/-- Claim the only answer of a tree. The first claim succeeds, every later one fails. -/
def completeTree (tree : String) : Action StoreError Bool := do
  return (← call (.incr (Key.done tree).render)) == 1

def isComplete (tree : String) : Action StoreError Bool := do
  return (← orAbsent (call (.get (Key.done tree).render))).isSome

/-- Count a miss in one walk of a tree, and return the count. -/
def recordMiss (tree : String) (pass : Int64) : Action StoreError Int64 :=
  call (.incr (Key.misses tree pass).render)

/-- Count a restart of a tree, and return the count. -/
def recordRetraversal (tree : String) : Action StoreError Int64 :=
  call (.incr (Key.retraversals tree).render)

/-- How often a tree was restarted; a stored text that is no integer counts as zero. -/
def retraversals (tree : String) : Action StoreError Int64 := do
  let stored ← orAbsent (call (.get (Key.retraversals tree).render))
  return (stored.bind Text.Integer.read?).getD 0

/-- The edges that a tree exercised, oldest first. -/
def trace (tree : String) : Action StoreError (List String) := do
  return (← call (.zrange (Key.trace tree).render)).map (·.1)

/-- The source of a payload that came from a submission. -/
def submissionSource : String := "submission"

/-- The edge along which a payload travelled. -/
def edge (p : Payload) : String := p.source?.getD submissionSource ++ ">" ++ p.destination

/-- Add the edge of a payload to the trace of its tree, at the present time. A payload without a
tree leaves no trace. -/
def track (p : Payload) : Action StoreError Unit :=
  match p.context.tree with
  | none => return ()
  | some tree => do
    let now ← Program.clock
    call (.zadd (Key.trace tree).render (edge p) (.ofMillis now))

/-! ### Information -/

/-- The information record of a text, made when the text is seen for the first time. -/
def informationIdFor (text : String) : Action StoreError String := do
  match ← orAbsent (call (.get (Key.informationId text).render)) with
  | some id => return id
  | none =>
    let id ← Program.mint
    call (.set (Key.information id).render text)
    call (.set (Key.informationId text).render id)
    return id

def information (id : String) : Action StoreError String :=
  call (.get (Key.information id).render)

/-- The behaviour at which the text of an information record enters a cell. It stays the same, so
that the routes learned from it are walked again. -/
def entryBehaviour (information cell : String) : Action StoreError String := do
  match ← orAbsent (call (.get (Key.entry information cell).render)) with
  | some id => return id
  | none =>
    let id ← Program.mint
    bind id cell
    call (.set (Key.entry information cell).render id)
    return id

end SelfWiring.Graph
