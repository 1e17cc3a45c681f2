import SelfWiring.Payload
import SelfWiring.Program

/-! # Cells

A cell is a named unit of work: a signature, a few marks, and an action that turns arguments into
results. The signature is compared with the arguments before the action is run, and the number of
results with the signature afterwards.
-/

namespace SelfWiring

structure Cell where
  name : String
  signature : Signature
  metadata : List (String × String) := []
  /-- Nothing is forwarded after a terminal cell. -/
  terminal : Bool := false
  /-- An entry cell receives submissions only and is never explored into. -/
  entry : Bool := false
  call : Context → List Value → Action CellError (List Value)

namespace Cell

/-- Refuse a payload whose arguments do not fit the cell. -/
def activate (c : Cell) (p : Payload) : Except EngineError Payload :=
  match c.signature.check p.args with
  | .ok () => .ok p
  | .error reason => .error (.notActivated c.name reason)

/-- The payload with the results of the cell in place of its arguments. -/
def calculate (c : Cell) (p : Payload) : Action EngineError Payload := do
  let results ← Action.ofCell (c.call p.context p.args)
  if results.length = c.signature.outputs.length then return { p with args := results }
  else throw (.cell (.arity c.name c.signature.outputs.length results.length))

/-- A cell that computes its results from its arguments alone. -/
def pure (name : String) (signature : Signature) (metadata : List (String × String))
    (f : List Value → Except Objection (List Value)) : Cell where
  name
  signature
  metadata
  call _ args :=
    match f args with
    | .ok results => return results
    | .error objection => throw (.domain name objection)

end Cell

end SelfWiring
