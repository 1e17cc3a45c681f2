import SelfWiring.Cell.Basic
import SelfWiring.Graph
import SelfWiring.Queue

/-! # The output cell

Where a walk ends. A result that its session accepts is delivered, at most once in the life of a
tree. A result that misses the expectation of its session restarts the tree, at most once in each
walk and within a budget of restarts for the tree; later misses of a walk are passed over.
-/

namespace SelfWiring.Cell

def outputName : String := "output"

/-- Claim the only answer of a tree. A result without a tree needs no claim. -/
def claimAnswer (tree : String) : Action StoreError Bool :=
  if tree = "" then return true else Graph.completeTree tree

/-- Deliver a result to its session, unless its tree was answered before. -/
def deliver (ctx : Context) (output : String) : Action CellError Unit :=
  match ctx.session with
  | none => throw (.missingContext .session)
  | some session => do
    let tree := ctx.tree.getD ""
    if ← claimAnswer tree then
      Action.call (.push (Key.outputs session).render output)
      Program.publish (.emitted session tree output)

/-- The payload with which a tree begins anew: the text of its submission, on its way to the first
behaviour, in a walk of its own. -/
def restartPayload (ctx : Context) (id text first cell : String) : Payload where
  args := [.text text]
  context := { ctx.fork id with behaviour := some first, cell := some cell, pass := ctx.pass + 1 }
  destination := first
  sources := ctx.behaviour.toList

/-- Queue the restart of a tree. -/
def queueRestart (ctx : Context) (tree : String) : Action CellError Unit :=
  match ctx.information with
  | none => throw (.missingContext .information)
  | some information => do
    let text ← Graph.information information
    let first ← Graph.firstBehaviour tree
    let cell ← Graph.binding first
    let id ← Program.mint
    Queue.push Key.eventQueue.render (restartPayload ctx id text first cell).encode

/-- Answer a miss: restart the tree if this is the first miss of its walk and the budget allows it.
The number of the restart is returned if there is one. -/
def retraverse (limit : UInt32) (ctx : Context) (tree : String) :
    Action CellError (Option Int64) := do
  let misses ← Graph.recordMiss tree ctx.pass
  if 1 < misses then return none
  else
    let attempt ← Graph.recordRetraversal tree
    if limit ≠ 0 ∧ Int64.ofNat limit.toNat < attempt then
      throw (.budgetExhausted tree (attempt - 1))
    else
      queueRestart ctx tree
      return some attempt

/-- Compare a result with the expectation of its session, if there is one. -/
def conclude (limit : UInt32) (ctx : Context) (output : String) :
    Action CellError (List Value) := do
  if ctx.expectation.all (· == output) then
    deliver ctx output
    return []
  else
    match ctx.tree with
    | none => throw (.missingContext .tree)
    | some tree =>
      match ← retraverse limit ctx tree with
      | some attempt => throw (.expectationNotMet tree attempt)
      | none => return []

/-- Whether the tree of a context, if it has one, was answered before. -/
def isAnswered (ctx : Context) : Action StoreError Bool :=
  match ctx.tree with
  | none => return false
  | some tree => Graph.isComplete tree

/-- The output cell that allows `limit` restarts of a tree. -/
def output (limit : UInt32) : Cell where
  name := outputName
  signature := ⟨[.any], [], false⟩
  terminal := true
  call ctx args :=
    match args with
    | [] => throw (.domain outputName .nothingToOutput)
    | v :: _ => do
      if ← isAnswered ctx then return []
      else conclude limit ctx v.display

end SelfWiring.Cell
