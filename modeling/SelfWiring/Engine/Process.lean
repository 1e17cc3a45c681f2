import SelfWiring.Engine.Basic
import SelfWiring.Engine.Forward

/-! # Accepting and processing

`Engine.accept` turns a submission into the first payload of a new tree. `Engine.process` takes one
payload through its cell: the arguments are compared with the signature, the cell is run, its
results are forwarded unless the cell is terminal, and the edge is added to the trace.
-/

namespace SelfWiring.Engine

/-- The cell at which a submission enters. -/
def entryCell (s : Submission) : String := if s.echo then Cell.outputName else Cell.inputName

/-- The first payload of a tree. -/
def firstPayload (s : Submission) (id tree information behaviour : String) : Payload where
  args := [.text s.input]
  context :=
    { id
      behaviour := some behaviour
      cell := some (entryCell s)
      tree := some tree
      session := some s.session
      information := some information
      expectation := s.expectation }
  destination := behaviour
  sources := []

/-- Begin a tree for a submission, and return the tree. -/
def accept (s : Submission) : Action EngineError String := do
  let tree ← Program.mint
  let information ← Graph.informationIdFor s.input
  let behaviour ← Graph.entryBehaviour information (entryCell s)
  Graph.anchorTree tree behaviour
  let id ← Program.mint
  Queue.push Key.eventQueue.render (firstPayload s id tree information behaviour).encode
  Program.publish (.accepted s.session tree)
  return tree

/-- The cell that a payload is for. -/
def cellFor (e : Engine) (p : Payload) : Except EngineError Cell :=
  match p.context.cell with
  | none => .error (.missingContext .cell)
  | some name =>
    match e.registry.get? name with
    | none => .error (.unknownCell name)
    | some cell => .ok cell

/-- Forward the results of a cell that is not terminal. -/
def passOn (e : Engine) (cell : Cell) (behaviour : String) (results : Payload) :
    Action EngineError Outcome :=
  if cell.terminal then return .terminated
  else do
    let n ← forward e.registry e.config.maxSignals results
    if n = 0 then Program.publish (.deadEnd behaviour)
    return .forwarded n

/-- Take one payload through its cell. A trace that cannot be written is no failure. -/
def process (e : Engine) (p : Payload) : Action EngineError Outcome := do
  let cell ← e.cellFor p
  let p ← cell.activate p
  let results ← cell.calculate p
  let outcome ← e.passOn cell p.destination results
  let _ ← Action.observe (Graph.track results)
  return outcome

/-- Append a submission to the input queue. -/
def submit (s : Submission) : Action StoreError Unit := Queue.push Key.inputQueue.render s.encode

end SelfWiring.Engine
