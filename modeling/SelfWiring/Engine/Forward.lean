import SelfWiring.Cell.Registry
import SelfWiring.Graph
import SelfWiring.Queue

/-! # Forwarding

Results travel along the connections of the behaviour that produced them. A behaviour that never
forwarded before is explored first: new behaviours are made, each is bound to a cell that takes the
results, and they are stored as its connections. From then on the stored connections are used,
whoever stored them.
-/

namespace SelfWiring.Engine

/-- An identifier for each drawn cell. -/
def mintAll : List String → Program (List (String × String))
  | [] => return []
  | cell :: rest => do
    let id ← Program.mint
    return (id, cell) :: (← mintAll rest)

/-- Make the connections of a behaviour that has none. -/
def explore (r : Registry) (limit : UInt64) (producer : String) (args : List Value) :
    Action StoreError (List String) := do
  let drawn ← Program.draw limit (r.candidates args)
  let minted ← mintAll drawn
  Graph.connect producer minted

/-- The connections of a behaviour, explored now if need be. -/
def successors (r : Registry) (limit : UInt64) (producer : String) (args : List Value) :
    Action StoreError (List String) := do
  match ← Graph.connections producer with
  | some stored => return stored
  | none => explore r limit producer args

/-- The payload that carries results on to one of the following behaviours. -/
def successorPayload (p : Payload) (producer id behaviour cell : String) : Payload where
  args := p.args
  context := { p.context.fork id with behaviour := some behaviour, cell := some cell }
  destination := behaviour
  sources := [producer]

/-- Queue the results for each of the following behaviours. -/
def queueAll (p : Payload) (producer : String) : List String → Action StoreError Unit
  | [] => return ()
  | behaviour :: rest => do
    let cell ← Graph.binding behaviour
    let id ← Program.mint
    Queue.push Key.eventQueue.render (successorPayload p producer id behaviour cell).encode
    queueAll p producer rest

/-- Send the results in a payload on, and say to how many behaviours. -/
def forward (r : Registry) (limit : UInt64) (p : Payload) : Action EngineError Nat :=
  match p.context.behaviour with
  | none => throw (.missingContext .behaviour)
  | some producer => do
    let behaviours ← successors r limit producer p.args
    queueAll p producer behaviours
    return behaviours.length

end SelfWiring.Engine
